import MicroSsa.Proofs.Function.FlowWork
import MicroSsa.Proofs.Function.Guards
/-!
# Discovery ends before its fuel does

Discovery alternates flow following with jump-table recovery until a round finds no new table.
A round that goes on has found a table for an indirect branch that had neither a table nor a
recorded failure (an *unsettled* branch), and recovery settles every unsettled branch it tries:
a failure is recorded, and a table is found again by the sequence number of its branch, which
the scratch analysis keeps (`opsKept_analyzeBody`). So after a round that goes on no branch is
unsettled, and the next round can only find branches in code it decodes, no more than the listed
operations it decodes (`FlowFollowed`). The measure of a round is the listed operations not
decoded plus the unsettled branches (`discoverLoop_fuel`).

Counting the other way, each round that goes on settles at least one branch, so the rounds are
at most one more than the indirect branches of the answer (`discoverLoop_rounds`).
-/

namespace MicroSsa

namespace Function

variable {ctx : Context} {f g h : Function} {d : Decoder}

/-- An indirect branch with neither a recorded failure nor a table found by its sequence
number: the branches jump-table recovery tries. -/
def unsettled (f : Function) (o : Nat) : Bool :=
  !(f.unresolved.any (·.1 == o)) &&
    !(f.jumpTables.any fun jt => some jt.opSeq == (f.store.op? o).map (·.seq))

/-- The indirect branches still to be tried. -/
def unsettledCount (f : Function) : Nat :=
  f.indirects.toList.countP f.unsettled

/-- Every indirect branch is an operation of the store. -/
def IndirectsInStore (f : Function) : Prop :=
  ∀ o ∈ f.indirects.toList, o < f.store.ops.size

theorem unsettledCount_le (f : Function) : f.unsettledCount ≤ f.indirects.size := by
  rw [unsettledCount, ← Array.length_toList]
  exact List.countP_le_length

/-! ## Flow following settles nothing and unsettles nothing -/

/-- A branch settled before flow following stays settled: its failure or table stays, and so
does its sequence number. -/
theorem unsettled_of_flowFollowed (hF : FlowFollowed d f g) {o : Nat} (ho : g.unsettled o = true) :
    f.unsettled o = true := by
  simp only [unsettled, Bool.and_eq_true, Bool.not_eq_true', hF.unresolved, hF.jumpTables] at ho ⊢
  refine ⟨ho.1, ?_⟩
  cases hx : f.store.op? o with
  | none => simp
  | some x =>
    obtain ⟨y, hy, hyx⟩ := hF.store.op? hx
    have hseq : (g.store.op? o).map (·.seq) = (f.store.op? o).map (·.seq) := by
      rw [hy, hx]
      exact congrArg (some ∘ Prod.snd) hyx
    rw [← hx, ← hseq]
    exact ho.2

/-- **Flow following finds no more unsettled branches than the branches it finds, and no more
than the listed operations it decodes.** -/
theorem unsettledCount_flowFollowed (hF : FlowFollowed d f g) :
    g.unsettledCount + f.indirects.size ≤ f.unsettledCount + g.indirects.size ∧
      g.unsettledCount + undecodedOps d g ≤ f.unsettledCount + undecodedOps d f := by
  obtain ⟨new, hnew⟩ := hF.indirects
  have hold : (f.indirects.toList.countP g.unsettled) ≤ f.unsettledCount :=
    List.countP_mono_left fun o _ ho => unsettled_of_flowFollowed hF ho
  have hcount : g.unsettledCount ≤ f.unsettledCount + new.length := by
    rw [unsettledCount, ← hnew, List.countP_append]
    exact Nat.add_le_add hold List.countP_le_length
  have hlen : g.indirects.size = f.indirects.size + new.length := by
    rw [← Array.length_toList, ← Array.length_toList, ← hnew, List.length_append]
  have hwork := hF.work
  omega

theorem IndirectsInStore.flowFollowed (hI : f.IndirectsInStore) (hF : FlowFollowed d f g) :
    g.IndirectsInStore := by
  intro o ho
  rcases hF.inStore o ho with ho | ho
  · exact Nat.lt_of_lt_of_le (hI o ho) hF.store.size_le
  · exact ho

/-! ## Recovery settles every branch it tries -/

theorem recordRecovery_ok (f : Function) (o : Nat) (jt : JumpTable) :
    (f.recordRecovery o (.ok jt)).1.jumpTables = f.jumpTables.push jt ∧
      (f.recordRecovery o (.ok jt)).1.unresolved = f.unresolved := by
  unfold recordRecovery
  dsimp only
  rw [← Array.foldl_toList]
  exact ⟨congrArg (·.push jt) (foldl_proj_eq Function.jumpTables (fun _ _ => by exact rfl) _ _),
    foldl_proj_eq Function.unresolved (fun _ _ => by exact rfl) _ _⟩

/-- Recording a recovery settles no branch off: failures and tables only grow. -/
theorem unsettled_recordRecovery (f : Function) (o : Nat) (r : Except RecoveryFailure JumpTable)
    {o' : Nat} (h : f.unsettled o' = false) : (f.recordRecovery o r).1.unsettled o' = false := by
  have hs := (recordRecovery_store_calls f o r).1
  simp only [unsettled, Bool.and_eq_false_iff, Bool.not_eq_false'] at h ⊢
  rw [hs]
  cases r with
  | ok jt =>
    rw [(recordRecovery_ok f o jt).1, (recordRecovery_ok f o jt).2]
    rcases h with h | h
    · exact .inl h
    · exact .inr (by simp [h])
  | error e =>
    refine h.imp (fun h => ?_) id
    simp [recordRecovery, List.any_append, h]

/-- Recording the recovery of branch `o` settles it, when a table found is one for `o`. -/
theorem unsettled_recordRecovery_self (f : Function) (o : Nat)
    (r : Except RecoveryFailure JumpTable)
    (hr : ∀ jt, r = .ok jt → some jt.opSeq = (f.store.op? o).map (·.seq)) :
    (f.recordRecovery o r).1.unsettled o = false := by
  have hs := (recordRecovery_store_calls f o r).1
  simp only [unsettled, Bool.and_eq_false_iff, Bool.not_eq_false']
  rw [hs]
  cases r with
  | ok jt =>
    rw [(recordRecovery_ok f o jt).1]
    refine .inr ?_
    simp [hr jt rfl]
  | error e =>
    exact .inl (by simp [recordRecovery])

/-- A fold of recordings settles every branch it records, and keeps those settled before. -/
theorem unsettled_foldl_recordRecovery (r : Nat → Except RecoveryFailure JumpTable) :
    ∀ (l : List Nat), (∀ o ∈ l, ∀ jt, r o = .ok jt → some jt.opSeq = (f.store.op? o).map (·.seq)) →
    ∀ (acc : Function × Nat), acc.1.store = f.store → ∀ o,
      (o ∈ l ∨ acc.1.unsettled o = false) →
      (l.foldl (fun acc o => ((acc.1.recordRecovery o (r o)).1, acc.2 + (acc.1.recordRecovery o (r o)).2))
        acc).1.unsettled o = false
  | [], _, _, _, _, ho => by
    rcases ho with ho | ho
    · cases ho
    · exact ho
  | x :: l, hr, acc, hs, o, ho => by
    have hs' : (acc.1.recordRecovery x (r x)).1.store = f.store :=
      (recordRecovery_store_calls _ _ _).1.trans hs
    rw [List.foldl_cons]
    refine unsettled_foldl_recordRecovery r l (fun o ho => hr o (List.mem_cons_of_mem x ho))
      ((acc.1.recordRecovery x (r x)).1, acc.2 + (acc.1.recordRecovery x (r x)).2) hs' o ?_
    rcases ho with ho | ho
    · rcases List.mem_cons.mp ho with rfl | ho
      · exact .inr (unsettled_recordRecovery_self _ _ _ fun jt hjt =>
          hs ▸ hr o List.mem_cons_self jt hjt)
      · exact .inl ho
    · exact .inr (unsettled_recordRecovery _ _ _ ho)

/-- A table recovered from the scratch copy is one for its branch: the scratch analysis keeps
the sequence number of every operation of the function. -/
theorem recoverTable_opSeq {o : Nat} {jt : JumpTable} (hs : f.analyzeBody ctx = .ok g)
    (ho : o < f.store.ops.size) (ht : g.recoverTable ctx o = .ok jt) :
    some jt.opSeq = (f.store.op? o).map (·.seq) := by
  obtain ⟨br, -, -, -, -, -, -, hbr, -, -, -, -, hseq, -⟩ := recoverTable_eq_ok_read ht
  have hk := (opsKept_analyzeBody hs).kept o br hbr ho
  rw [hseq]
  exact (congrArg (Option.map Prod.snd) hk).symm.trans (by rw [Option.map_map]; rfl)

/-- **Recovery settles every branch**: after it, no indirect branch is unsettled; it records
the tables found on the function and changes nothing else flow following reads. And when it
finds a table, some branch was unsettled. -/
theorem recoverJumpTables_settles {n : Nat} (hI : f.IndirectsInStore)
    (h : f.recoverJumpTables ctx = .ok (g, n)) :
    g.unsettledCount = 0 ∧ (n ≠ 0 → f.unsettledCount ≠ 0) ∧ g.indirects = f.indirects ∧
      g.store = f.store ∧ g.visited = f.visited := by
  have hind := recoverJumpTables_keeps Function.indirects (fun f o r => by
    unfold recordRecovery
    split
    · dsimp only
      rw [← Array.foldl_toList]
      exact foldl_proj_eq Function.indirects (fun _ _ => by exact rfl) _ _
    · rfl) h
  have hstore := (recoverJumpTables_store_calls h).1
  have hvis := recoverJumpTables_keeps Function.visited recordRecovery_visited h
  refine ⟨?_, ?_, hind, hstore, hvis⟩
  · unfold recoverJumpTables at h
    dsimp only at h
    split at h
    · -- nothing to try: every branch is settled already
      rename_i hempty
      change (f.indirects.toList.filter f.unsettled).isEmpty = true at hempty
      cases h
      rw [unsettledCount, List.countP_eq_length_filter, List.isEmpty_iff.mp hempty]
      rfl
    · obtain ⟨scratch, hscratch, h⟩ := Except.bind_eq_ok h
      simp only [pure, Except.pure, Except.ok.injEq] at h
      have hg := congrArg Prod.fst h
      dsimp only at hg
      subst hg
      rw [unsettledCount, List.countP_eq_zero]
      intro o ho
      have ho' : o ∈ f.indirects.toList := by rwa [hind] at ho
      rw [Bool.not_eq_true]
      refine unsettled_foldl_recordRecovery (fun o => recoverTable ctx scratch o) _
        (fun o ho jt hjt => recoverTable_opSeq hscratch (hI o (List.mem_filter.mp ho).1) hjt)
        (f, 0) rfl o ?_
      · by_cases hu : f.unsettled o = true
        · exact .inl (List.mem_filter.mpr ⟨ho', hu⟩)
        · exact .inr (by simpa using hu)
  · intro hn hzero
    unfold recoverJumpTables at h
    dsimp only at h
    split at h
    · cases h
      exact hn rfl
    · rename_i hne
      change ¬(f.indirects.toList.filter f.unsettled).isEmpty = true at hne
      rw [unsettledCount, List.countP_eq_length_filter] at hzero
      exact hne (List.isEmpty_iff.mpr (List.eq_nil_of_length_eq_zero hzero))

/-! ## The rounds of discovery -/

/-- **One round of discovery**: it stops, or it goes on, with every indirect branch settled,
from a function with fewer listed operations not decoded and unsettled branches, together. -/
theorem discoverLoop_succ_congr {n m : Nat} (f : Function) (hI : f.IndirectsInStore)
    (hrec : ∀ g, g.IndirectsInStore →
      undecodedOps ctx.decoder g + g.unsettledCount < undecodedOps ctx.decoder f + f.unsettledCount →
      discoverLoop ctx n g = discoverLoop ctx m g) :
    discoverLoop ctx (n + 1) f = discoverLoop ctx (m + 1) f := by
  rw [discoverLoop, discoverLoop]
  cases h₁ : f.followFlow ctx with
  | error e => rfl
  | ok f₁ =>
    dsimp only [bind, Except.bind]
    split
    · rfl
    cases h₂ : f₁.recoverJumpTables ctx with
    | error e => rfl
    | ok p =>
      obtain ⟨g, k⟩ := p
      dsimp only
      split
      · rfl
      rename_i hk
      have hF := flowFollowed_followFlow h₁
      have hI₁ := hI.flowFollowed hF
      obtain ⟨hzero, hfound, hind, hstore, hvis⟩ := recoverJumpTables_settles hI₁ h₂
      refine hrec g (fun o ho => ?_) ?_
      · rw [hstore]
        exact hI₁ o (hind ▸ ho)
      · -- the round found a table, so some branch was unsettled; now none is
        have hU : undecodedOps ctx.decoder g = undecodedOps ctx.decoder f₁ := by
          rw [undecodedOps, undecodedOps, undecoded_congr hvis]
        have hC := (unsettledCount_flowFollowed hF).2
        have hne := hfound (by simpa using hk)
        omega

/-- **Discovery ends before its fuel does**: from a function whose indirect branches are
operations of its store, with more fuel than the listed operations not decoded and the
unsettled branches, more fuel changes nothing. -/
theorem discoverLoop_fuel (f : Function) (hI : f.IndirectsInStore) (n : Nat)
    (hn : undecodedOps ctx.decoder f + f.unsettledCount < n) (k : Nat) :
    discoverLoop ctx (n + k) f = discoverLoop ctx n f :=
  fuel_stable (discoverLoop ctx) (fun g => undecodedOps ctx.decoder g + g.unsettledCount)
    IndirectsInStore (fun g hg _ _ hrec => discoverLoop_succ_congr g hg hrec) n f hI hn k

theorem indirects_discoverLoop :
    ∀ (fuel : Nat) {f g : Function}, discoverLoop ctx fuel f = .ok g →
      f.indirects.size ≤ g.indirects.size
  | 0, f, g, h => by
    cases h
    exact Nat.le_refl _
  | fuel + 1, f, g, h => by
    obtain ⟨f₁, h₁, hnext⟩ := discoverLoop_succ_cases h
    have hf₁ : f.indirects.size ≤ f₁.indirects.size := by
      have hp := (flowFollowed_followFlow h₁).indirects.length_le
      simpa only [Array.length_toList] using hp
    rcases hnext with ⟨-, rfl⟩ | ⟨f₂, n, -, h₂, hnext⟩
    · exact hf₁
    have hind := recoverJumpTables_keeps Function.indirects (fun f o r => by
      unfold recordRecovery
      split
      · dsimp only
        rw [← Array.foldl_toList]
        exact foldl_proj_eq Function.indirects (fun _ _ => by exact rfl) _ _
      · rfl) h₂
    rcases hnext with ⟨-, rfl⟩ | ⟨-, hnext⟩
    · exact hind ▸ hf₁
    · exact Nat.le_trans hf₁ (hind ▸ indirects_discoverLoop fuel hnext)

/-- **At most one round more than the indirect branches found**: each round that goes on
settles at least one of the branches the answer ends with, so fuel for one round more than the
branches not settled at the start gives the answer already. -/
theorem discoverLoop_rounds :
    ∀ (n : Nat) {f g : Function}, f.IndirectsInStore →
      undecodedOps ctx.decoder f + f.unsettledCount < n → discoverLoop ctx n f = .ok g →
      ∀ j, discoverLoop ctx (g.indirects.size - (f.indirects.size - f.unsettledCount) + 1 + j) f =
        .ok g
  | 0, _, _, _, hn, _ => absurd hn (Nat.not_lt_zero _)
  | m + 1, f, g, hI, hn, h => by
    intro j
    rw [discoverLoop] at h
    obtain ⟨f₁, h₁, h⟩ := Except.bind_eq_ok h
    have hF := flowFollowed_followFlow h₁
    -- the fuel given is one round more than some fuel
    obtain ⟨i, hi⟩ : ∃ i, g.indirects.size - (f.indirects.size - f.unsettledCount) + 1 + j = i + 1 :=
      ⟨g.indirects.size - (f.indirects.size - f.unsettledCount) + j, by omega⟩
    rw [hi, discoverLoop, h₁]
    dsimp only [bind, Except.bind]
    split at h
    · rename_i hc
      rw [if_pos hc]
      exact h
    rename_i hc
    rw [if_neg hc]
    obtain ⟨⟨g₁, k⟩, h₂, h⟩ := Except.bind_eq_ok h
    rw [h₂]
    dsimp only at h ⊢
    split at h
    · rename_i hk
      rw [if_pos hk]
      exact h
    rename_i hk
    rw [if_neg hk]
    -- the next round starts with every branch settled, at least one more than before
    have hI₁ := hI.flowFollowed hF
    obtain ⟨hzero, hfound, hind, hstore, hvis⟩ := recoverJumpTables_settles hI₁ h₂
    have hne := hfound (by simpa using hk)
    have hC := unsettledCount_flowFollowed hF
    have hle := unsettledCount_le f
    have hg := indirects_discoverLoop m h
    have hU : undecodedOps ctx.decoder g₁ = undecodedOps ctx.decoder f₁ := by
      rw [undecodedOps, undecodedOps, undecoded_congr hvis]
    have hsize : g₁.indirects.size = f₁.indirects.size := by rw [hind]
    have hrest := discoverLoop_rounds m (g := g) (fun o ho => hstore ▸ hI₁ o (hind ▸ ho))
      (by omega) h (j + (f₁.indirects.size - (f.indirects.size - f.unsettledCount) - 1))
    rw [hzero] at hrest
    rw [show i = g.indirects.size - (g₁.indirects.size - 0) + 1 +
      (j + (f₁.indirects.size - (f.indirects.size - f.unsettledCount) - 1)) by omega]
    exact hrest

/-- **Discovery terminates within its fuel.** Decoding along fallthrough needs no more steps
than the listing has instructions, and following the pending addresses no more than there are
pending addresses and listed operations: the fuel `processFrom` and `followLoop` are given never
runs out. Discovery from a function with no indirect branch yet, as a new function is, needs no
more rounds than there are listed operations, the fuel `discoverFlow` gives it, and in fact no
more than one round more than the indirect branches it ends with. -/
theorem discovery_terminates (ctx : Context) :
    (∀ f cur k, processFrom ctx (ctx.decoder.entries.length + 1 + k) f cur =
      processFrom ctx (ctx.decoder.entries.length + 1) f cur) ∧
    (∀ f k, followLoop ctx (f.pending.length + ctx.decoder.opCount + 1 + k) f =
      followLoop ctx (f.pending.length + ctx.decoder.opCount + 1) f) ∧
    ∀ f : Function, f.indirects = #[] →
      (∀ k, discoverLoop ctx (ctx.decoder.opCount + 2 + k) f =
        discoverLoop ctx (ctx.decoder.opCount + 2) f) ∧
      ∀ g, discoverLoop ctx (ctx.decoder.opCount + 2) f = .ok g →
        discoverLoop ctx (g.indirects.size + 1) f = .ok g := by
  refine ⟨processFrom_fuel ctx, followLoop_fuel ctx, fun f hf => ?_⟩
  have hI : f.IndirectsInStore := fun o ho => by simp [hf] at ho
  have hC : f.unsettledCount = 0 := by simp [unsettledCount, hf]
  have hn : undecodedOps ctx.decoder f + f.unsettledCount < ctx.decoder.opCount + 2 := by
    have := undecodedOps_le ctx.decoder f
    omega
  refine ⟨discoverLoop_fuel f hI _ hn, fun g hg => ?_⟩
  have h := discoverLoop_rounds _ hI hn hg 0
  simpa [hf, hC] using h

/-- A new function at the top of the space, discovered with the listing of `topFitContext`. -/
theorem discovery_terminates_top :
    (Function.init "main" ⟨0, 0xfffffffffffffff0⟩ toyContext.arch.spaces 1000000).indirects = #[] ∧
    ∀ k, discoverLoop topFitContext (topFitContext.decoder.opCount + 2 + k)
        (Function.init "main" ⟨0, 0xfffffffffffffff0⟩ toyContext.arch.spaces 1000000) =
      discoverLoop topFitContext (topFitContext.decoder.opCount + 2)
        (Function.init "main" ⟨0, 0xfffffffffffffff0⟩ toyContext.arch.spaces 1000000) :=
  ⟨rfl, ((discovery_terminates topFitContext).2.2 _ rfl).1⟩

end Function

end MicroSsa
