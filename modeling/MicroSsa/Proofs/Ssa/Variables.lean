import MicroSsa.Proofs.Ssa.Placement
import MicroSsa.Proofs.Store.Orders
import MicroSsa.Proofs.Function.Instructions
/-!
# The variables SSA construction renames

`Function.collectVariables` makes two passes over the varnodes in location order. The first
collects the locations of the free varnodes that operations of reached blocks read, in location
order without repeats; the second adds to each the reached blocks whose operations write it.
`collectVariables_spec` says what comes out, in terms of the operations the block lists hold:
the keys are exactly the variables read in reached blocks (`ReadsKey`), in strictly increasing
location order, and the writers of each key are exactly the reached blocks holding an operation
that writes it (`Writes`), without repeats. The first pass sees free reads only, so the keys are
all variables read when every read of a reached block is free, a constant or a code address
(`ReadsFree`), as it is before SSA form.
-/

namespace MicroSsa

namespace Function

/-! ## Location order -/

theorem addr_eq_of_compare_eq {a b : Address} (h : Address.compare a b = .eq) : a = b := by
  by_contra hne
  rcases Address.lt_or_gt_of_ne hne with h' | h'
  · rw [Address.lt_def, h] at h'
    cases h'
  · rw [← Address.compare_eq_gt, h] at h'
    cases h'

theorem locationLt_iff {a b : Location} :
    locationLt a b = true ↔ a.addr < b.addr ∨ a.addr = b.addr ∧ a.size < b.size := by
  unfold locationLt
  cases h : Address.compare a.addr b.addr
  · simp [Address.lt_def.mpr h]
  · have hab := addr_eq_of_compare_eq h
    simp [hab, Address.lt_irrefl]
  · have hba := Address.compare_eq_gt.mp h
    have hne : a.addr ≠ b.addr := fun he => Address.lt_irrefl b.addr (he ▸ hba)
    have hnlt : ¬ a.addr < b.addr := fun hlt => Address.lt_irrefl a.addr (Address.lt_trans hlt hba)
    simp [hne, hnlt]

theorem locationLt_irrefl (a : Location) : locationLt a a = false := by
  cases h : locationLt a a
  · rfl
  · rcases locationLt_iff.mp h with h | h
    · exact absurd h (Address.lt_irrefl _)
    · exact absurd h.2 (Nat.lt_irrefl _)

theorem locationLt_trans {a b c : Location} (h₁ : locationLt a b = true)
    (h₂ : locationLt b c = true) : locationLt a c = true := by
  rw [locationLt_iff] at h₁ h₂ ⊢
  rcases h₁ with h₁ | ⟨e₁, h₁⟩ <;> rcases h₂ with h₂ | ⟨e₂, h₂⟩
  · exact Or.inl (Address.lt_trans h₁ h₂)
  · exact Or.inl (e₂ ▸ h₁)
  · exact Or.inl (e₁ ▸ h₂)
  · exact Or.inr ⟨e₁.trans e₂, Nat.lt_trans h₁ h₂⟩

theorem locationLt_total {a b : Location} (h : a ≠ b) :
    locationLt a b = true ∨ locationLt b a = true := by
  rw [locationLt_iff, locationLt_iff]
  by_cases ha : a.addr = b.addr
  · have hs : a.size ≠ b.size := fun hs => h (by cases a; cases b; simp_all)
    rcases Nat.lt_or_gt_of_ne hs with hs | hs
    · exact Or.inl (Or.inr ⟨ha, hs⟩)
    · exact Or.inr (Or.inr ⟨ha.symm, hs⟩)
  · rcases Address.lt_or_gt_of_ne ha with hl | hl
    · exact Or.inl (Or.inl hl)
    · exact Or.inr (Or.inl hl)

/-! ## Ordered insertion of numbers -/

theorem mem_insertNat {b n : Nat} : ∀ {xs : List Nat}, b ∈ insertNat xs n ↔ b = n ∨ b ∈ xs
  | [] => by simp [insertNat]
  | x :: rest => by
    unfold insertNat
    split
    · simp
    · split
      · rename_i hnx
        subst hnx
        simp only [List.mem_cons]
        constructor
        · exact Or.inr
        · rintro (rfl | h)
          · exact Or.inl rfl
          · exact h
      · simp only [List.mem_cons, @mem_insertNat b n rest]
        tauto

theorem insertNat_sorted {n : Nat} : ∀ {xs : List Nat}, xs.Pairwise (· < ·) →
    (insertNat xs n).Pairwise (· < ·)
  | [], _ => List.pairwise_singleton _ n
  | x :: rest, h => by
    unfold insertNat
    split
    · rename_i hnx
      exact List.pairwise_cons.mpr ⟨fun z hz => by
        rcases List.mem_cons.mp hz with rfl | hz
        · exact hnx
        · exact Nat.lt_trans hnx (List.rel_of_pairwise_cons h hz), h⟩
    · split
      · exact h
      · rename_i hnx hne
        have hxn : x < n := by omega
        obtain ⟨hx, hrest⟩ := List.pairwise_cons.mp h
        exact List.pairwise_cons.mpr ⟨fun z hz => by
          rcases mem_insertNat.mp hz with rfl | hz
          · exact hxn
          · exact hx z hz, insertNat_sorted hrest⟩

/-! ## The two passes -/

/-- The first pass at one varnode: the location of a free varnode read in a reached block joins
the variables, in location order. -/
def readStep (f : Function) (vars : List (Location × List Nat)) (v : Nat) :
    List (Location × List Nat) :=
  match f.store.vn? v with
  | some x =>
    if !x.isFree || x.flags.annotation then vars
    else if x.uses.any (fun o => (f.liveParent o).isSome) then
      if vars.any (·.1 == x.loc) then vars
      else
        let lower := vars.filter fun e => locationLt e.1 x.loc
        let upper := vars.filter fun e => locationLt x.loc e.1
        lower ++ [(x.loc, [])] ++ upper
    else vars
  | none => vars

/-- The second pass at one varnode: the reached block of its definition joins the writers of
its variable. -/
def writeStep (f : Function) (vars : List (Location × List Nat)) (v : Nat) :
    List (Location × List Nat) :=
  match f.store.vn? v with
  | some x =>
    match x.defOp, variableOf x with
    | some d, some key =>
      match f.liveParent d with
      | some b => vars.map fun (k, ws) => if k == key then (k, insertNat ws b) else (k, ws)
      | none => vars
    | _, _ => vars
  | none => vars

theorem collectVariables_eq (f : Function) :
    f.collectVariables = f.store.locOrder.foldl f.writeStep (f.store.locOrder.foldl f.readStep []) :=
  rfl

/-! ## The first pass: the variables read -/

/-- Varnode `v` is a free varnode at `k`, naming no code address, that an operation of a reached
block reads. -/
def FreeRead (f : Function) (k : Location) (v : Nat) : Prop :=
  ∃ x, f.store.vn? v = some x ∧ x.isFree = true ∧ x.flags.annotation = false ∧ x.loc = k ∧
    ∃ o ∈ x.uses, (f.liveParent o).isSome

/-- Entries in strictly increasing location order. -/
def KeysSorted (vars : List (Location × List Nat)) : Prop :=
  vars.Pairwise fun a b => locationLt a.1 b.1 = true

theorem KeysSorted.nodup {vars : List (Location × List Nat)} (h : KeysSorted vars) :
    (vars.map Prod.fst).Nodup := by
  refine List.pairwise_map.mpr (h.imp fun {a b} hab he => ?_)
  rw [he, locationLt_irrefl] at hab
  cases hab

/-- A new location goes between the entries below it and those above it. -/
theorem insert_sorted {vars : List (Location × List Nat)} (h : KeysSorted vars) {k : Location}
    (hk : k ∉ vars.map Prod.fst) (ws : List Nat) :
    KeysSorted (vars.filter (fun e => locationLt e.1 k) ++ [(k, ws)] ++
      vars.filter (fun e => locationLt k e.1)) ∧
    ∀ e, e ∈ vars.filter (fun e => locationLt e.1 k) ++ [(k, ws)] ++
      vars.filter (fun e => locationLt k e.1) ↔ e = (k, ws) ∨ e ∈ vars := by
  constructor
  · refine List.pairwise_append.mpr ⟨List.pairwise_append.mpr ⟨h.filter _, List.pairwise_singleton _ _,
      fun a ha b hb => ?_⟩, h.filter _, fun a ha b hb => ?_⟩
    · rw [List.mem_singleton.mp hb]
      simpa using (List.mem_filter.mp ha).2
    · have hb' : locationLt k b.1 = true := by simpa using (List.mem_filter.mp hb).2
      rcases List.mem_append.mp ha with ha | ha
      · exact locationLt_trans (by simpa using (List.mem_filter.mp ha).2) hb'
      · rw [List.mem_singleton.mp ha]
        exact hb'
  · intro e
    simp only [List.mem_append, List.mem_filter, List.mem_singleton]
    constructor
    · rintro ((⟨he, -⟩ | he) | ⟨he, -⟩)
      · exact Or.inr he
      · exact Or.inl he
      · exact Or.inr he
    · rintro (he | he)
      · exact Or.inl (Or.inr he)
      · have hne : e.1 ≠ k := fun h' => hk (h' ▸ List.mem_map_of_mem he)
        rcases locationLt_total hne with hl | hl
        · exact Or.inl (Or.inl ⟨he, hl⟩)
        · exact Or.inr ⟨he, hl⟩

theorem readStep_spec (f : Function) {vars : List (Location × List Nat)} (h : KeysSorted vars)
    (he : ∀ e ∈ vars, e.2 = []) (v : Nat) :
    KeysSorted (f.readStep vars v) ∧ (∀ e ∈ f.readStep vars v, e.2 = []) ∧
      ∀ k, k ∈ (f.readStep vars v).map Prod.fst ↔ k ∈ vars.map Prod.fst ∨ f.FreeRead k v := by
  unfold readStep
  cases hv : f.store.vn? v with
  | none => exact ⟨h, he, fun k => by simp [FreeRead, hv]⟩
  | some x =>
    dsimp only
    by_cases hskip : (!x.isFree || x.flags.annotation) = true
    · rw [if_pos hskip]
      refine ⟨h, he, fun k => ⟨Or.inl, fun h' => h'.resolve_right ?_⟩⟩
      rintro ⟨x', hx', hfree, hann, -⟩
      rw [hv, Option.some.injEq] at hx'
      subst hx'
      simp [hfree, hann] at hskip
    rw [if_neg hskip]
    by_cases huse : x.uses.any (fun o => (f.liveParent o).isSome) = true
    · rw [if_pos huse]
      have hread : ∀ k, f.FreeRead k v ↔ x.loc = k := by
        intro k
        constructor
        · rintro ⟨x', hx', -, -, hk, -⟩
          rw [hv, Option.some.injEq] at hx'
          exact hx' ▸ hk
        · rintro rfl
          simp only [Bool.or_eq_true, Bool.not_eq_true', not_or, Bool.not_eq_true] at hskip
          obtain ⟨o, ho, hl⟩ := Array.any_eq_true'.mp huse
          exact ⟨x, hv, by simpa using hskip.1, hskip.2, rfl, o, ho, hl⟩
      by_cases hin : vars.any (·.1 == x.loc) = true
      · rw [if_pos hin]
        refine ⟨h, he, fun k => ⟨Or.inl, fun h' => h'.elim id fun h'' => ?_⟩⟩
        obtain ⟨e, he', hek⟩ := List.any_eq_true.mp hin
        rw [← (hread k).mp h'', ← (beq_iff_eq.mp hek)]
        exact List.mem_map_of_mem he'
      · rw [if_neg hin]
        have hk : x.loc ∉ vars.map Prod.fst := fun hk => hin (by
          obtain ⟨e, he', hek⟩ := List.mem_map.mp hk
          exact List.any_eq_true.mpr ⟨e, he', by simp [hek]⟩)
        obtain ⟨hsorted, hmem⟩ := insert_sorted h hk []
        refine ⟨hsorted, fun e' he' => ?_, fun k => ?_⟩
        · rcases (hmem e').mp he' with rfl | he'
          · rfl
          · exact he e' he'
        · rw [hread k]
          simp only [List.mem_map, hmem]
          constructor
          · rintro ⟨e', he' | he', rfl⟩
            · exact Or.inr (by rw [he'])
            · exact Or.inl ⟨e', he', rfl⟩
          · rintro (⟨e', he', rfl⟩ | rfl)
            · exact ⟨e', Or.inr he', rfl⟩
            · exact ⟨(x.loc, []), Or.inl rfl, rfl⟩
    · rw [if_neg huse]
      refine ⟨h, he, fun k => ⟨Or.inl, fun h' => h'.resolve_right ?_⟩⟩
      rintro ⟨x', hx', -, -, -, o, ho, hl⟩
      rw [hv, Option.some.injEq] at hx'
      subst hx'
      exact huse (Array.any_eq_true'.mpr ⟨o, ho, hl⟩)

theorem foldl_readStep (f : Function) :
    ∀ (l : List Nat) (vars : List (Location × List Nat)), KeysSorted vars → (∀ e ∈ vars, e.2 = []) →
      KeysSorted (l.foldl f.readStep vars) ∧ (∀ e ∈ l.foldl f.readStep vars, e.2 = []) ∧
      ∀ k, k ∈ (l.foldl f.readStep vars).map Prod.fst ↔
        k ∈ vars.map Prod.fst ∨ ∃ v ∈ l, f.FreeRead k v
  | [], vars, h, he => ⟨h, he, fun k => by simp⟩
  | v :: l, vars, h, he => by
    obtain ⟨h₁, he₁, hk₁⟩ := f.readStep_spec h he v
    obtain ⟨h₂, he₂, hk₂⟩ := foldl_readStep f l _ h₁ he₁
    refine ⟨h₂, he₂, fun k => ?_⟩
    rw [List.foldl_cons, hk₂, hk₁]
    simp only [List.mem_cons, exists_eq_or_imp]
    tauto

/-! ## The second pass: the writers -/

/-- Varnode `v` is at variable `k` and defined by an operation of the reached block `b`. -/
def WriteAt (f : Function) (k : Location) (v b : Nat) : Prop :=
  ∃ y d, f.store.vn? v = some y ∧ y.defOp = some d ∧ variableOf y = some k ∧ f.liveParent d = some b

theorem writeStep_keys (f : Function) (vars : List (Location × List Nat)) (v : Nat) :
    (f.writeStep vars v).map Prod.fst = vars.map Prod.fst := by
  unfold writeStep
  split
  · split
    · split
      · rw [List.map_map]
        congr 1
        funext e
        simp only [Function.comp_apply]
        split <;> rfl
      · rfl
    · rfl
  · rfl

/-- Writer lists in increasing order, each holding exactly the blocks `Q` names for its key. -/
def WritersAre (Q : Location → Nat → Prop) (vars : List (Location × List Nat)) : Prop :=
  ∀ e ∈ vars, e.2.Pairwise (· < ·) ∧ ∀ b, b ∈ e.2 ↔ Q e.1 b

theorem writeStep_spec (f : Function) {Q : Location → Nat → Prop} {vars : List (Location × List Nat)}
    (h : WritersAre Q vars) (v : Nat) :
    WritersAre (fun k b => Q k b ∨ f.WriteAt k v b) (f.writeStep vars v) := by
  -- the one key and block the varnode names, if any
  have hnone : (∀ k b, ¬ f.WriteAt k v b) → WritersAre (fun k b => Q k b ∨ f.WriteAt k v b) vars :=
    fun hw e he => ⟨(h e he).1, fun b => ((h e he).2 b).trans ⟨Or.inl, fun h' => h'.resolve_right (hw _ _)⟩⟩
  unfold writeStep
  cases hv : f.store.vn? v with
  | none => exact hnone fun k b ⟨y, d, hy, _⟩ => by rw [hv] at hy; cases hy
  | some x =>
    dsimp only
    cases hd : x.defOp with
    | none =>
      exact hnone fun k b ⟨y, d, hy, hyd, _⟩ => by
        rw [hv, Option.some.injEq] at hy; subst hy; rw [hd] at hyd; cases hyd
    | some d =>
      cases hk : variableOf x with
      | none =>
        exact hnone fun k b ⟨y, d', hy, _, hyk, _⟩ => by
          rw [hv, Option.some.injEq] at hy; subst hy; rw [hk] at hyk; cases hyk
      | some key =>
        dsimp only
        cases hb : f.liveParent d with
        | none =>
          exact hnone fun k b ⟨y, d', hy, hyd, _, hyb⟩ => by
            rw [hv, Option.some.injEq] at hy; subst hy; rw [hd, Option.some.injEq] at hyd
            subst hyd; rw [hb] at hyb; cases hyb
        | some b₀ =>
          have hw : ∀ k b, f.WriteAt k v b ↔ k = key ∧ b = b₀ := by
            intro k b
            constructor
            · rintro ⟨y, d', hy, hyd, hyk, hyb⟩
              rw [hv, Option.some.injEq] at hy
              subst hy
              rw [hd, Option.some.injEq] at hyd
              subst hyd
              rw [hk, Option.some.injEq] at hyk
              rw [hb, Option.some.injEq] at hyb
              exact ⟨hyk.symm, hyb.symm⟩
            · rintro ⟨rfl, rfl⟩
              exact ⟨x, d, hv, hd, hk, hb⟩
          intro e he
          obtain ⟨⟨k, ws⟩, hkw, rfl⟩ := List.mem_map.mp he
          obtain ⟨hsort, hmem⟩ := h _ hkw
          by_cases hkk : k = key
          · subst hkk
            simp only [beq_self_eq_true, if_true]
            refine ⟨insertNat_sorted hsort, fun b => ?_⟩
            rw [mem_insertNat, hw, hmem]
            simp only [true_and]
            tauto
          · simp only [beq_iff_eq, hkk, if_false]
            refine ⟨hsort, fun b => ?_⟩
            rw [hmem, hw]
            simp [hkk]

theorem foldl_writeStep (f : Function) :
    ∀ (l : List Nat) {Q : Location → Nat → Prop} (vars : List (Location × List Nat)),
      WritersAre Q vars →
      WritersAre (fun k b => Q k b ∨ ∃ v ∈ l, f.WriteAt k v b) (l.foldl f.writeStep vars) ∧
        (l.foldl f.writeStep vars).map Prod.fst = vars.map Prod.fst
  | [], Q, vars, h => ⟨fun e he => ⟨(h e he).1, fun b => by simp [(h e he).2 b]⟩, rfl⟩
  | v :: l, Q, vars, h => by
    obtain ⟨h₂, hk₂⟩ := foldl_writeStep f l _ (f.writeStep_spec h v)
    refine ⟨fun e he => ⟨(h₂ e he).1, fun b => ?_⟩, ?_⟩
    · rw [List.foldl_cons] at he
      rw [(h₂ e he).2 b]
      simp only [List.mem_cons, exists_eq_or_imp]
      tauto
    · rw [List.foldl_cons, hk₂, writeStep_keys]

/-! ## What comes out -/

variable {f : Function}

/-- An operation listed by a reached block reads a varnode of variable `k`. -/
def ReadsKey (f : Function) (k : Location) : Prop :=
  ∃ b, f.graph.Live b ∧ ∃ o ∈ (f.graph.get b).ops, ∃ x v y, f.store.op? o = some x ∧
    v ∈ x.inputs ∧ f.store.vn? v = some y ∧ variableOf y = some k

/-- The reached block `b` lists an operation that writes a varnode of variable `k`. -/
def Writes (f : Function) (k : Location) (b : Nat) : Prop :=
  f.graph.Live b ∧ ∃ o ∈ (f.graph.get b).ops, ∃ x v y, f.store.op? o = some x ∧
    x.output = some v ∧ f.store.vn? v = some y ∧ variableOf y = some k

/-- Every varnode an operation of a reached block reads is free, a constant or a code address:
nothing is linked yet. -/
def ReadsFree (f : Function) : Prop :=
  ∀ b, f.graph.Live b → ∀ o ∈ (f.graph.get b).ops, ∀ x v y, f.store.op? o = some x →
    v ∈ x.inputs → f.store.vn? v = some y →
    y.isFree = true ∨ y.flags.constant = true ∨ y.flags.annotation = true

theorem lt_size_of_mem_ops {G : BlockGraph} {b o : Nat} (h : o ∈ (G.get b).ops) : b < G.size := by
  by_contra hb
  simp [BlockGraph.get, Array.getElem?_eq_none (Nat.le_of_not_lt hb)] at h

theorem variableOf_eq_some {y : Varnode} {k : Location} :
    variableOf y = some k ↔ y.flags.constant = false ∧ y.flags.annotation = false ∧ y.loc = k := by
  unfold variableOf
  cases hc : y.flags.constant <;> cases ha : y.flags.annotation <;> simp

/-- With block lists that hold, the reached block of an operation is the reached block listing
it. -/
theorem liveParent_eq_some (hB : f.BlocksHold) {o b : Nat} :
    f.liveParent o = some b ↔ f.graph.Live b ∧ o ∈ (f.graph.get b).ops := by
  unfold liveParent
  constructor
  · intro h
    cases hx : f.store.op? o with
    | none => simp [hx] at h
    | some x =>
      cases hp : x.parent with
      | none => simp [hx, hp] at h
      | some b' =>
        simp only [hx, hp, bind, Option.bind] at h
        split at h
        · cases h
        · cases h
          have hmem := hB.listed hx hp
          exact ⟨⟨lt_size_of_mem_ops hmem, Bool.eq_false_iff.mpr ‹_›⟩, hmem⟩
  · rintro ⟨hl, hmem⟩
    obtain ⟨x, hx, hp, -⟩ := hB.member hmem
    simp [hx, hp, bind, Option.bind, hl.2]

theorem exists_freeRead_iff (hS : f.store.Sound) (hB : f.BlocksHold) (hfree : f.ReadsFree)
    (k : Location) : (∃ v ∈ f.store.locOrder, f.FreeRead k v) ↔ f.ReadsKey k := by
  constructor
  · rintro ⟨v, -, x, hx, hfr, hann, rfl, o, ho, hl⟩
    obtain ⟨b, hb⟩ := Option.isSome_iff_exists.mp hl
    obtain ⟨hlive, hmem⟩ := (liveParent_eq_some hB).mp hb
    obtain ⟨xo, hxo, -⟩ := hB.member hmem
    -- a reader listed in the uses reads the varnode
    have hreads : 0 < f.store.readsOf o v := by
      rw [← hS.linked.uses_count hx o]
      exact Array.count_pos_iff.mpr ho
    simp only [Store.readsOf, hxo, Option.map_some, Option.getD_some] at hreads
    have hc : x.flags.constant = false := by
      simp only [Varnode.isFree, Bool.and_eq_true, Bool.not_eq_true'] at hfr
      exact hfr.2
    exact ⟨b, hlive, o, hmem, xo, v, x, hxo, Array.count_pos_iff.mp hreads, hx,
      variableOf_eq_some.mpr ⟨hc, hann, rfl⟩⟩
  · rintro ⟨b, hlive, o, hmem, xo, v, y, hxo, hv, hy, hk⟩
    obtain ⟨hc, hann, rfl⟩ := variableOf_eq_some.mp hk
    have hfr : y.isFree = true := by
      rcases hfree b hlive o hmem xo v y hxo hv hy with h | h | h
      · exact h
      · rw [hc] at h; cases h
      · rw [hann] at h; cases h
    have hreads : 0 < f.store.readsOf o v := by
      simp only [Store.readsOf, hxo, Option.map_some, Option.getD_some]
      exact Array.count_pos_iff.mpr hv
    rw [← hS.linked.uses_count hy o] at hreads
    exact ⟨v, Store.mem_locOrder.mpr (by simp [hy]), y, hy, hfr, hann, rfl, o,
      Array.count_pos_iff.mp hreads, by rw [(liveParent_eq_some hB).mpr ⟨hlive, hmem⟩]; rfl⟩

theorem exists_writeAt_iff (hS : f.store.Sound) (hB : f.BlocksHold) (k : Location) (b : Nat) :
    (∃ v ∈ f.store.locOrder, f.WriteAt k v b) ↔ f.Writes k b := by
  constructor
  · rintro ⟨v, -, y, d, hy, hd, hk, hb⟩
    obtain ⟨hlive, hmem⟩ := (liveParent_eq_some hB).mp hb
    obtain ⟨x, hx, hout⟩ := hS.linked.def_output hy hd
    exact ⟨hlive, d, hmem, x, v, y, hx, hout, hy, hk⟩
  · rintro ⟨hlive, o, hmem, x, v, y, hx, hout, hy, hk⟩
    obtain ⟨y', hy', hd⟩ := hS.linked.output_def hx hout
    rw [hy] at hy'
    cases hy'
    exact ⟨v, Store.mem_locOrder.mpr (by simp [hy]), y, o, hy, hd, hk,
      (liveParent_eq_some hB).mpr ⟨hlive, hmem⟩⟩

/-- **The variables.** In a sound function whose block lists hold and whose reached blocks read
nothing linked yet, `collectVariables` lists each variable read in a reached block once, in
strictly increasing location order, with the reached blocks that write it, in increasing order. -/
theorem collectVariables_spec (hS : f.store.Sound) (hB : f.BlocksHold) (hfree : f.ReadsFree) :
    KeysSorted f.collectVariables ∧
      (∀ k, k ∈ f.collectVariables.map Prod.fst ↔ f.ReadsKey k) ∧
      ∀ e ∈ f.collectVariables, e.2.Pairwise (· < ·) ∧ ∀ b, b ∈ e.2 ↔ f.Writes e.1 b := by
  obtain ⟨hsort₁, hnil₁, hkeys₁⟩ := f.foldl_readStep f.store.locOrder [] List.Pairwise.nil
    (fun _ h => absurd h List.not_mem_nil)
  have hw₁ : WritersAre (fun _ _ => False) (f.store.locOrder.foldl f.readStep []) :=
    fun e he => by rw [hnil₁ e he]; exact ⟨List.Pairwise.nil, fun b => by simp⟩
  obtain ⟨hw₂, hk₂⟩ := f.foldl_writeStep f.store.locOrder _ hw₁
  rw [collectVariables_eq]
  refine ⟨?_, fun k => ?_, fun e he => ⟨(hw₂ e he).1, fun b => ?_⟩⟩
  · -- the second pass keeps the entries' keys, in their order
    have := (List.pairwise_map (R := fun a b : Location => locationLt a b = true)).mpr hsort₁
    rw [← hk₂] at this
    exact List.pairwise_map.mp this
  · rw [hk₂, hkeys₁, ← exists_freeRead_iff hS hB hfree]
    simp
  · rw [(hw₂ e he).2 b, ← exists_writeAt_iff hS hB]
    simp

/-- A variable read is never in the constant space. -/
theorem ReadsKey.space_ne (hS : f.store.Sound) {k : Location} (h : f.ReadsKey k) :
    k.addr.space ≠ f.store.constSpace := by
  obtain ⟨b, -, o, -, x, v, y, -, -, hy, hk⟩ := h
  obtain ⟨hc, -, rfl⟩ := variableOf_eq_some.mp hk
  have hsp := hS.linked.constant hy
  rw [hc] at hsp
  simpa using hsp.symm

/-! ## Merges of every variable -/

/-- Placing the merges of the variables `vars`, one after the other, none of them placed yet. -/
theorem AllPlaced.foldPlace {f₀ : Function} (hB₀ : f₀.BlocksHold) (h₀ : NoMerges f₀)
    (hF : f₀.graph.FrontiersLive) (maxDepth : Nat) :
    ∀ (vars done : List (Location × List Nat)) (f : Function), AllPlaced f₀ f done →
      (vars.map Prod.fst).Nodup → (∀ e ∈ vars, ∀ ws, (e.1, ws) ∉ done) →
      (∀ e ∈ vars, e.1.addr.space ≠ f₀.store.constSpace ∧ (∀ w ∈ e.2, f₀.graph.Live w) ∧ e.2.Nodup) →
      ∃ g, vars.foldlM (fun f e => f.placeMerges maxDepth e.1 e.2) f = .ok g ∧
        AllPlaced f₀ g (done ++ vars)
  | [], done, f, h, _, _, _ => ⟨f, rfl, by simpa using h⟩
  | e :: vars, done, f, h, hnd, hnot, hv => by
    obtain ⟨hsp, hws, hwnd⟩ := hv e List.mem_cons_self
    obtain ⟨g, hg, hP⟩ := h.placeMerges hB₀ h₀ hF hsp (hnot e List.mem_cons_self) hws hwnd maxDepth
    rw [List.map_cons, List.nodup_cons] at hnd
    -- the variables still to come are not among those just placed
    have hnot' : ∀ e' ∈ vars, ∀ ws, (e'.1, ws) ∉ done ++ [(e.1, e.2)] := by
      intro e' he' ws hmem
      rcases List.mem_append.mp hmem with hmem | hmem
      · exact hnot e' (List.mem_cons_of_mem _ he') ws hmem
      · rw [List.mem_singleton, Prod.mk.injEq] at hmem
        exact hnd.1 (hmem.1 ▸ List.mem_map_of_mem he')
    obtain ⟨g', hg', hP'⟩ := AllPlaced.foldPlace hB₀ h₀ hF maxDepth vars _ g hP hnd.2 hnot'
      fun e' he' => hv e' (List.mem_cons_of_mem _ he')
    refine ⟨g', by rw [List.foldlM_cons, hg]; exact hg', by simpa using hP'⟩

/-- The merges of every variable read in a reached block are placed: at each block, one merge of
each variable whose writers' iterated frontier holds it, and no other. -/
theorem placeAll_spec (hS : f.store.Sound) (hB : f.BlocksHold) (h₀ : NoMerges f)
    (hF : f.graph.FrontiersLive) (hfree : f.ReadsFree) (maxDepth : Nat) :
    ∃ g, f.collectVariables.foldlM (fun f e => f.placeMerges maxDepth e.1 e.2) f = .ok g ∧
      AllPlaced f g f.collectVariables := by
  obtain ⟨hsort, hkeys, hws⟩ := collectVariables_spec hS hB hfree
  have hv : ∀ e ∈ f.collectVariables,
      e.1.addr.space ≠ f.store.constSpace ∧ (∀ w ∈ e.2, f.graph.Live w) ∧ e.2.Nodup := by
    intro e he
    obtain ⟨hlt, hmem⟩ := hws e he
    refine ⟨ReadsKey.space_ne hS ((hkeys e.1).mp (List.mem_map_of_mem he)),
      fun w hw => ((hmem w).mp hw).1, hlt.imp Nat.ne_of_lt⟩
  simpa using AllPlaced.foldPlace hB h₀ hF maxDepth f.collectVariables [] f
    (AllPlaced.start hS hB h₀) hsort.nodup (fun _ _ _ h => absurd h List.not_mem_nil) hv

end Function

end MicroSsa
