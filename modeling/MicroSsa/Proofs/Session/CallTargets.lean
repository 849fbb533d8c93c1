import MicroSsa.Proofs.Session.KeptCalls
import MicroSsa.Proofs.Function.FlowSteps
/-!
# Where call targets come from

A direct call names its target by the address of its first operand, so every target that flow
following records is the address of the first operand of some listed operation
(`Decoder.firstOperands`); there are no more of those than listed operations. Flow following
marks a first operand that names a code address as an annotation, and records a call's target
only from an annotation, so the invariant carried through it (`Function.CallSites`) is that
every annotation of the store names one of these addresses (`Store.AnnotatedIn`) and every call
recorded has its target among them.
-/

namespace MicroSsa

namespace Decoder

/-- The addresses of the first operands of every listed operation. -/
def firstOperands (d : Decoder) : List Address :=
  d.entries.flatMap fun e => e.2.ops.filterMap fun op => op.inputs.head?.map (·.addr)

theorem opCount_eq_sum (d : Decoder) : d.opCount = (d.entries.map fun e => e.2.ops.length).sum := by
  have h : ∀ (l : List (Address × Instruction)) (n : Nat),
      l.foldl (fun n e => n + e.2.ops.length) n = n + (l.map fun e => e.2.ops.length).sum := by
    intro l
    induction l with
    | nil => simp
    | cons e l ih =>
      intro n
      simp only [List.foldl_cons, ih, List.map_cons, List.sum_cons]
      omega
  show d.entries.foldl _ 0 = _
  simpa using h d.entries 0

/-- There are no more first operands than listed operations. -/
theorem length_firstOperands_le (d : Decoder) : d.firstOperands.length ≤ d.opCount := by
  rw [opCount_eq_sum, firstOperands, List.length_flatMap]
  apply List.sum_le_sum
  intro e _
  exact List.length_filterMap_le _ _

/-- The first operand of an operation of a decoded instruction is a first operand of the
listing. -/
theorem mem_firstOperands_of_decode {d : Decoder} {a : Address} {len : Nat} {ops : List ListedOp}
    (h : d.decode a = .instruction len ops) {e : ListedOp} (he : e ∈ ops) {vd : Location}
    (hvd : e.inputs.head? = some vd) : vd.addr ∈ d.firstOperands := by
  unfold decode at h
  cases hf : d.entries.find? (·.1 == a) with
  | none => simp [hf] at h
  | some p =>
    obtain ⟨a', i⟩ := p
    have hmem : (a', i) ∈ d.entries := List.mem_of_find?_eq_some hf
    have hops : ops = i.ops := by
      simp only [hf] at h
      split at h
      · cases h
      · cases h
        rfl
    subst hops
    exact List.mem_flatMap.mpr ⟨(a', i), hmem, List.mem_filterMap.mpr ⟨e, he, by simp [hvd]⟩⟩

end Decoder

namespace Store

/-- Every annotation of the store names an address of `T`. -/
def AnnotatedIn (T : List Address) (s : Store) : Prop :=
  ∀ v y, s.vn? v = some y → y.flags.annotation = true → y.loc.addr ∈ T

variable {s t : Store} {T : List Address}

theorem AnnotatedIn.of_vn? (h : s.AnnotatedIn T) (hv : ∀ v, t.vn? v = s.vn? v) : t.AnnotatedIn T :=
  fun v y hy => h v y ((hv v).symm.trans hy)

/-- A change of varnodes that keeps their locations and annotation marks keeps the invariant. -/
theorem AnnotatedIn.modifyVn (h : s.AnnotatedIn T) (v : Nat) {g : Varnode → Varnode}
    (hg : ∀ y, (g y).flags.annotation = y.flags.annotation ∧ (g y).loc = y.loc) :
    (s.modifyVn v g).AnnotatedIn T := by
  intro w y hw ha
  rw [vn?_modifyVn] at hw
  split at hw
  · obtain ⟨y₀, hy₀, rfl⟩ := Option.map_eq_some_iff.mp hw
    rw [(hg y₀).2]
    exact h w y₀ hy₀ ((hg y₀).1 ▸ ha)
  · exact h w y hw ha

/-- Marking a varnode as an annotation keeps the invariant when it names an address of `T`. -/
theorem AnnotatedIn.annotate (h : s.AnnotatedIn T) {v : Nat}
    (hv : ∀ y, s.vn? v = some y → y.loc.addr ∈ T) :
    (s.modifyVn v fun x => { x with flags := { x.flags with annotation := true } }).AnnotatedIn T := by
  intro w y hw ha
  rw [vn?_modifyVn] at hw
  split at hw
  · obtain ⟨y₀, hy₀, rfl⟩ := Option.map_eq_some_iff.mp hw
    subst_vars
    exact hv y₀ hy₀
  · exact h w y hw ha

theorem AnnotatedIn.modifyOp (h : s.AnnotatedIn T) (o : Nat) (g : Op → Op) :
    (s.modifyOp o g).AnnotatedIn T :=
  h.of_vn? fun _ => rfl

/-- A new varnode is no annotation. -/
theorem AnnotatedIn.newVarnode (h : s.AnnotatedIn T) (size : Nat) (addr : Address) :
    (s.newVarnode size addr).2.AnnotatedIn T := by
  intro w y hw ha
  rw [vn?_newVarnode] at hw
  split at hw
  · cases hw
    cases ha
  · exact h w y hw ha

theorem AnnotatedIn.addUse (h : s.AnnotatedIn T) {v o : Nat} (hs : s.addUse v o = .ok t) :
    t.AnnotatedIn T := by
  obtain ⟨_, -, hs⟩ := Except.bind_eq_ok hs
  cases hs
  exact h.modifyVn v fun _ => ⟨rfl, rfl⟩

theorem AnnotatedIn.removeUse (h : s.AnnotatedIn T) {v o : Nat} (hs : s.removeUse v o = .ok t) :
    t.AnnotatedIn T := by
  obtain ⟨_, -, hs⟩ := Except.bind_eq_ok hs
  cases hs
  exact h.modifyVn v fun _ => ⟨rfl, rfl⟩

theorem AnnotatedIn.setInput (h : s.AnnotatedIn T) {o v slot : Nat}
    (hs : s.setInput o v slot = .ok t) : t.AnnotatedIn T := by
  unfold Store.setInput at hs
  obtain ⟨x, -, hs⟩ := Except.bind_eq_ok hs
  dsimp only at hs
  split at hs
  · cases hs
  · split at hs
    · obtain ⟨s₁, h₁, hs⟩ := Except.bind_eq_ok hs
      exact ((h.modifyOp o _).removeUse h₁).addUse hs
    · exact (h.modifyOp o _).addUse hs

theorem AnnotatedIn.setOutput (h : s.AnnotatedIn T) {o v : Nat} (hs : s.setOutput o v = .ok t) :
    t.AnnotatedIn T := by
  unfold Store.setOutput at hs
  obtain ⟨y, -, hs⟩ := Except.bind_eq_ok hs
  split at hs
  · cases hs
  · obtain ⟨⟨r, s₁⟩, h₁, hs⟩ := Except.bind_eq_ok hs
    cases hs
    have h₁' : s₁.AnnotatedIn T := by
      unfold Store.unsetOutput at h₁
      obtain ⟨x, -, h₁⟩ := Except.bind_eq_ok h₁
      split at h₁
      · cases h₁
        exact h
      · cases h₁
        exact (h.modifyOp o _).modifyVn _ fun _ => ⟨rfl, rfl⟩
    apply AnnotatedIn.modifyOp
    exact h₁'.modifyVn v fun _ => ⟨rfl, rfl⟩

theorem AnnotatedIn.createOutput (h : s.AnnotatedIn T) {o : Nat} {loc : Location} {v : Nat}
    (hs : s.createOutput o loc = .ok (v, t)) : t.AnnotatedIn T := by
  unfold Store.createOutput at hs
  obtain ⟨t', ht', hs⟩ := Except.bind_eq_ok hs
  cases hs
  exact (h.newVarnode loc.size loc.addr).setOutput ht'

theorem AnnotatedIn.newOp (h : s.AnnotatedIn T) {opc : Opcode} {q : SeqNum} {o : Nat}
    (hs : s.newOp opc q = .ok (o, t)) : t.AnnotatedIn T := by
  unfold Store.newOp at hs
  split at hs
  · cases hs
  · cases hs
    exact h.of_vn? fun _ => rfl

theorem AnnotatedIn.markAlive (h : s.AnnotatedIn T) {o : Nat} (hs : s.markAlive o = .ok t) :
    t.AnnotatedIn T := by
  obtain ⟨_, -, hs⟩ := Except.bind_eq_ok hs
  cases hs
  exact h.modifyOp o _

theorem annotatedIn_empty (T : List Address) (c : Nat) (u : Option Nat) :
    (Store.empty c u).AnnotatedIn T := by
  intro v y hv
  simp [Store.empty, vn?] at hv

end Store

namespace Function

variable {T : List Address}

/-- Flow following so far: every annotation of the store names an address of `T`, and every
call recorded has its target among them, or has none and is marked unknown. -/
structure CallSites (T : List Address) (f : Function) : Prop where
  annotated : f.store.AnnotatedIn T
  calls : ∀ c ∈ f.calls.toList, (c.target = none → c.status = .unknown) ∧
    ∀ t, c.target = some t → t ∈ T

theorem CallSites.of_eq {f g : Function} (h : f.CallSites T) (hs : g.store = f.store)
    (hc : g.calls = f.calls) : g.CallSites T :=
  ⟨hs ▸ h.annotated, hc ▸ h.calls⟩

/-- Decoding an instruction marks as annotations only first operands of its operations. -/
theorem annotatedIn_instantiate {ctx : Context} {f g : Function} {addr : Address}
    {listed : List ListedOp} {ops : List Nat} (h : f.store.AnnotatedIn T)
    (hl : ∀ e ∈ listed, ∀ vd, e.inputs.head? = some vd → vd.addr ∈ T)
    (hi : f.instantiate ctx addr listed = .ok (g, ops)) : g.store.AnnotatedIn T ∧ g.calls = f.calls := by
  unfold instantiate at hi
  dsimp only at hi
  obtain ⟨⟨store, ops'⟩, hfold, hi⟩ := Except.bind_eq_ok hi
  cases hi
  refine ⟨?_, rfl⟩
  -- the operations of an empty instruction are one `NOP` without operands
  have hl' : ∀ e ∈ (if listed.isEmpty then [⟨.nop, none, []⟩] else listed),
      ∀ vd, e.inputs.head? = some vd → vd.addr ∈ T := by
    split
    · simp
    · exact hl
  have hstore : store.AnnotatedIn T := by
    refine foldlM_ok_invariant (fun acc => acc.1.AnnotatedIn T) hfold h ?_
    rintro e he ⟨s, os⟩ y hs hstep
    dsimp only at hstep hs
    obtain ⟨⟨o, s₁⟩, h₁, hstep⟩ := Except.bind_eq_ok hstep
    obtain ⟨s₂, h₂, hstep⟩ := Except.bind_eq_ok hstep
    obtain ⟨s₃, h₃, hstep⟩ := Except.bind_eq_ok hstep
    have hs₁ : s₁.AnnotatedIn T :=
      Store.AnnotatedIn.newOp (s := (s.newSeq addr).2) (hs.of_vn? fun _ => rfl) h₁
    have hs₃ : s₃.AnnotatedIn T := by
      refine foldlM_ok_invariant (fun s => s.AnnotatedIn T) h₃ (hs₁.markAlive h₂) ?_
      rintro ⟨vd, slot⟩ hmem s y hs hstep
      dsimp only at hstep hs ⊢
      refine Store.AnnotatedIn.setInput ?_ hstep
      split
      · rename_i ht
        simp only [Bool.and_eq_true, beq_iff_eq] at ht
        have hvd : e.inputs.head? = some vd := by
          rw [List.head?_eq_getElem?, ← ht.1.1]
          exact List.mem_zipIdx_iff_getElem?.mp hmem
        refine (hs.newVarnode vd.size vd.addr).annotate fun y hy => ?_
        rw [Store.vn?_newVarnode, Store.fst_newVarnode, if_pos rfl] at hy
        cases hy
        exact hl' e he vd hvd
      · exact hs.newVarnode vd.size vd.addr
    split at hstep
    · obtain ⟨⟨v, s₄⟩, h₄, hstep⟩ := Except.bind_eq_ok hstep
      cases hstep
      exact hs₃.createOutput h₄
    · cases hstep
      exact hs₃
  split
  · exact hstore.modifyOp _ _
  · exact hstore

theorem CallSites.setStartBlock {f : Function} (h : f.CallSites T) (o : Nat) (v : Bool) :
    (f.setStartBlock o v).CallSites T :=
  ⟨h.annotated.modifyOp o _, h.calls⟩

/-- Recording a call keeps the invariant when its target is one of `T`. -/
theorem CallSites.push_call {f : Function} (h : f.CallSites T) (o : Nat) {target : Option Address}
    (ht : ∀ t, target = some t → t ∈ T) :
    { f with calls := f.calls.push ⟨o, target, if target.isSome then .unlinked else .unknown⟩ }.CallSites T := by
  refine ⟨h.annotated, fun c hc => ?_⟩
  rw [Array.toList_push, List.mem_append, List.mem_singleton] at hc
  rcases hc with hc | rfl
  · exact h.calls c hc
  · refine ⟨fun hn => ?_, ht⟩
    dsimp only at hn
    simp [hn]

/-- The flow effects of one operation: a call takes its target from an annotation. -/
theorem CallSites.examineOp {f : Function} (h : f.CallSites T) (addr : Address) (size : Nat)
    (ops : List Nat) (i o : Nat) : (f.examineOp addr size ops i o).CallSites T := by
  unfold Function.examineOp
  split
  · exact h
  · rename_i x hx
    split
    case h_1 | h_2 =>
      -- a direct branch queues or marks its target
      split
      · exact h
      · split
        · dsimp only
          split
          · split
            · exact h.setStartBlock _ true
            · exact h
          · split
            · exact h.of_eq rfl rfl
            · exact h.of_eq rfl rfl
        · exact h.of_eq rfl rfl
    case h_3 => exact h.of_eq rfl rfl
    case h_4 =>
      refine h.push_call o fun t ht => ?_
      obtain ⟨y, hy, ht⟩ := Option.bind_eq_some_iff.mp ht
      obtain ⟨v, -, hv⟩ := Option.bind_eq_some_iff.mp hy
      split at ht
      · cases ht
        exact h.annotated v y hv (by assumption)
      · cases ht
    case h_5 => exact h.push_call o fun _ ht => by cases ht
    case h_6 => exact h

theorem CallSites.addVisit {f : Function} (h : f.CallSites T) (a : Address) (v : VisitStat) :
    (f.addVisit a v).CallSites T :=
  h.of_eq rfl rfl

theorem CallSites.examineFlow {f : Function} (h : f.CallSites T) (addr : Address) (size : Nat)
    (ops : List Nat) : (f.examineFlow addr size ops).1.CallSites T :=
  foldl_invariant (CallSites T) (fun _ _ hg => hg.examineOp _ _ _ _ _) _ _ h

/-- Decoding an instruction keeps the invariant when its operations' first operands are
among `T`. -/
theorem CallSites.instantiate {ctx : Context} {f g : Function} {addr : Address}
    {listed : List ListedOp} {ops : List Nat} (h : f.CallSites T)
    (hl : ∀ e ∈ listed, ∀ vd, e.inputs.head? = some vd → vd.addr ∈ T)
    (hi : f.instantiate ctx addr listed = .ok (g, ops)) : g.CallSites T :=
  have hg := annotatedIn_instantiate h.annotated hl hi
  ⟨hg.1, hg.2 ▸ h.calls⟩

section Flow

variable {ctx : Context}

/-- Decoding along fallthrough records calls whose targets are first operands of the listing. -/
theorem CallSites.processFrom (hT : ∀ a ∈ ctx.decoder.firstOperands, a ∈ T) :
    ∀ (fuel : Nat) {f g : Function} {cur : Address} {ok : Bool}, f.CallSites T →
      processFrom ctx fuel f cur = .ok (g, ok) → g.CallSites T
  | 0, f, g, cur, ok, hf, h => by
    cases h
    exact hf
  | fuel + 1, f, g, cur, ok, hf, h => by
    rcases processFrom_succ_cases h with hs | ⟨len, listed, f₁, ops, seq, F, hD, hi, -, rfl, hnext⟩
    · exact hf.of_eq hs.store hs.calls
    have hl : ∀ e ∈ listed, ∀ vd, e.inputs.head? = some vd → vd.addr ∈ T :=
      fun e he vd hvd => hT _ (Decoder.mem_firstOperands_of_decode hD.decode he hvd)
    have h₁ : f₁.CallSites T :=
      CallSites.instantiate (f := { f with instCount := f.instCount + 1 }) (hf.of_eq rfl rfl) hl hi
    have h₃ := (h₁.addVisit cur ⟨seq, max len 1⟩).examineFlow cur (max len 1) ops
    rcases hnext with ⟨-, hnext⟩ | ⟨-, rfl, -⟩
    · exact CallSites.processFrom hT fuel h₃ hnext
    · exact h₃

theorem CallSites.followLoop (hT : ∀ a ∈ ctx.decoder.firstOperands, a ∈ T) :
    ∀ (fuel : Nat) {f g : Function}, f.CallSites T → followLoop ctx fuel f = .ok g → g.CallSites T
  | 0, f, g, hf, h => by
    cases h
    exact hf
  | fuel + 1, f, g, hf, h => by
    rcases followLoop_succ_cases h with ⟨-, rfl⟩ | ⟨a, rest, f₁, ok, -, h₁, hnext⟩
    · exact hf
    have hf₁ := CallSites.processFrom hT _ (hf.of_eq (g := { f with pending := rest }) rfl rfl) h₁
    rcases hnext with ⟨-, hnext⟩ | ⟨-, rfl⟩
    · exact CallSites.followLoop hT fuel hf₁ hnext
    · exact hf₁.of_eq rfl rfl

theorem CallSites.followFlow (hT : ∀ a ∈ ctx.decoder.firstOperands, a ∈ T) {f g : Function}
    (hf : f.CallSites T) (h : f.followFlow ctx = .ok g) : g.CallSites T := by
  obtain ⟨f₁, h₁, hs⟩ := followFlow_ok h
  exact (CallSites.followLoop hT _ hf h₁).of_eq hs.store hs.calls

/-- Recording a recovery touches neither the store nor the calls. -/
theorem recordRecovery_store_calls (f : Function) (o : Nat) (r : Except RecoveryFailure JumpTable) :
    (f.recordRecovery o r).1.store = f.store ∧ (f.recordRecovery o r).1.calls = f.calls := by
  unfold recordRecovery
  split
  · dsimp only
    rw [← Array.foldl_toList]
    exact ⟨foldl_proj_eq Function.store (fun _ _ => by rfl) _ _,
      foldl_proj_eq Function.calls (fun _ _ => by rfl) _ _⟩
  · exact ⟨rfl, rfl⟩

/-- Recovering jump tables works on a scratch copy and changes the function only by recording
recoveries, so it keeps whatever recording a recovery keeps. -/
theorem recoverJumpTables_keeps {β : Type} (π : Function → β)
    (hπ : ∀ f o r, π (f.recordRecovery o r).1 = π f) {f g : Function} {n : Nat}
    (h : f.recoverJumpTables ctx = .ok (g, n)) : π g = π f := by
  unfold recoverJumpTables at h
  dsimp only at h
  split at h
  · cases h
    rfl
  · obtain ⟨scratch, -, h⟩ := Except.bind_eq_ok h
    simp only [pure, Except.pure, Except.ok.injEq] at h
    have hg := congrArg Prod.fst h
    dsimp only at hg
    rw [← hg]
    exact foldl_invariant (fun acc : Function × Nat => π acc.1 = π f)
      (fun acc o hacc => by exact (hπ _ _ _).trans hacc) _ _ rfl

/-- Recovering jump tables keeps the store and the calls: the function only gains targets to
follow. -/
theorem recoverJumpTables_store_calls {f g : Function} {n : Nat}
    (h : f.recoverJumpTables ctx = .ok (g, n)) : g.store = f.store ∧ g.calls = f.calls := by
  have hk := recoverJumpTables_keeps (fun f => (f.store, f.calls))
    (fun f o r => by
      obtain ⟨hs, hc⟩ := recordRecovery_store_calls f o r
      exact Prod.ext hs hc) h
  exact ⟨congrArg Prod.fst hk, congrArg Prod.snd hk⟩

theorem CallSites.discoverLoop (hT : ∀ a ∈ ctx.decoder.firstOperands, a ∈ T) :
    ∀ (fuel : Nat) {f g : Function}, f.CallSites T → discoverLoop ctx fuel f = .ok g → g.CallSites T
  | 0, f, g, hf, h => by
    cases h
    exact hf
  | fuel + 1, f, g, hf, h => by
    obtain ⟨f₁, h₁, hnext⟩ := discoverLoop_succ_cases h
    have hf₁ := CallSites.followFlow hT hf h₁
    rcases hnext with ⟨-, rfl⟩ | ⟨f₂, n, -, h₂, hnext⟩
    · exact hf₁
    -- jump-table recovery works on a scratch copy
    obtain ⟨hs, hc⟩ := recoverJumpTables_store_calls h₂
    have hf₂ := hf₁.of_eq hs hc
    rcases hnext with ⟨-, rfl⟩ | ⟨-, hnext⟩
    · exact hf₂
    · exact CallSites.discoverLoop hT fuel hf₂ hnext

/-- Flow following records calls whose targets are first operands of the listing. -/
theorem CallSites.discoverFlow {f g : Function} (hf : f.CallSites ctx.decoder.firstOperands)
    (h : f.discoverFlow ctx = .ok g) : g.CallSites ctx.decoder.firstOperands := by
  unfold Function.discoverFlow at h
  refine CallSites.discoverLoop (fun _ ha => ha) _ ?_ h
  split
  · exact hf.of_eq rfl rfl
  · exact hf

end Flow

end Function

end MicroSsa
