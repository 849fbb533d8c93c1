import MicroSsa.Proofs.Function.DefWalks
import MicroSsa.Proofs.Function.Discovery
/-!
# Flow following links no read to a write

Flow following makes each listed operation of a decoded instruction into an operation of the
store, with a new varnode for every input it reads and a new varnode for its output
(`Function.instantiate`). So no operation writes a varnode that an operation reads
(`Store.ReadsUnwritten`); reads are linked to writes only later, by SSA construction.

Flow following changes the store in two ways only: it decodes instructions and it marks block
starts (`Function.FlowInvariant`), and jump-table recovery analyses a scratch copy. So a property
of stores that both keep holds all along discovery (`Function.FlowInvariant.discoverFlow`).
Reading only unwritten varnodes is one (`Function.flowInvariant_readsUnwritten`): every function
that discovery finds from a new one reads only varnodes that nothing writes, and so does its
partition into blocks, the function that SSA construction starts from
(`Function.readsUnlinked_discovered`). That is the hypothesis under which the definition walks of
jump-table recovery end.
-/

namespace MicroSsa

namespace Store

/-- Every varnode an operation reads exists, and no operation writes it. -/
def ReadsUnwritten (s : Store) : Prop :=
  ∀ o x v, s.op? o = some x → v ∈ x.inputs → ∃ y, s.vn? v = some y ∧ y.defOp = none

variable {s t : Store}

namespace ReadsUnwritten

/-- A varnode that is read is not the next one to be created. -/
theorem ne_size (h : s.ReadsUnwritten) {o v : Nat} {x : Op} (hx : s.op? o = some x)
    (hv : v ∈ x.inputs) : v ≠ s.varnodes.size := by
  obtain ⟨y, hy, -⟩ := h o x v hx hv
  rintro rfl
  rw [vn?_size] at hy
  cases hy

/-- A change of an operation that reads, besides what it read, at most one unwritten varnode. -/
theorem modifyOp_read (h : s.ReadsUnwritten) (o : Nat) {g : Op → Op} {v : Nat}
    (hv : ∃ y, s.vn? v = some y ∧ y.defOp = none)
    (hg : ∀ x, ∀ w ∈ (g x).inputs, w ∈ x.inputs ∨ w = v) : (s.modifyOp o g).ReadsUnwritten := by
  intro w y u hw hu
  rw [vn?_modifyOp]
  rw [op?_modifyOp] at hw
  split at hw
  · obtain ⟨y₀, hy₀, rfl⟩ := Option.map_eq_some_iff.mp hw
    rcases hg y₀ u hu with hu | rfl
    · exact h w y₀ u hy₀ hu
    · exact hv
  · exact h w y u hw hu

/-- A change of an operation that keeps its inputs. -/
theorem modifyOp (h : s.ReadsUnwritten) (o : Nat) {g : Op → Op}
    (hg : ∀ x, (g x).inputs = x.inputs) : (s.modifyOp o g).ReadsUnwritten := by
  intro w y u hw hu
  rw [vn?_modifyOp]
  rw [op?_modifyOp] at hw
  split at hw
  · obtain ⟨y₀, hy₀, rfl⟩ := Option.map_eq_some_iff.mp hw
    exact h w y₀ u hy₀ (hg y₀ ▸ hu)
  · exact h w y u hw hu

/-- A change of a varnode that writes it only if it was written before. -/
theorem modifyVn (h : s.ReadsUnwritten) (v : Nat) {g : Varnode → Varnode}
    (hg : ∀ y, y.defOp = none → (g y).defOp = none) : (s.modifyVn v g).ReadsUnwritten := by
  intro o x w hx hw
  rw [op?_modifyVn] at hx
  obtain ⟨y, hy, hd⟩ := h o x w hx hw
  rw [vn?_modifyVn]
  split
  · exact ⟨g y, by rw [hy, Option.map_some], hg y hd⟩
  · exact ⟨y, hy, hd⟩

/-- Any change of a varnode that nothing reads. -/
theorem modifyVn_of_unread (h : s.ReadsUnwritten) {v : Nat}
    (hv : ∀ o x, s.op? o = some x → v ∉ x.inputs) (g : Varnode → Varnode) :
    (s.modifyVn v g).ReadsUnwritten := by
  intro o x w hx hw
  rw [op?_modifyVn] at hx
  rw [vn?_modifyVn, if_neg fun hvw : v = w => hv o x hx (hvw ▸ hw)]
  exact h o x w hx hw

theorem newVarnode (h : s.ReadsUnwritten) (size : Nat) (addr : Address) :
    (s.newVarnode size addr).2.ReadsUnwritten := by
  intro o x w hx hw
  rw [op?_newVarnode] at hx
  rw [vn?_newVarnode, if_neg (h.ne_size hx hw)]
  exact h o x w hx hw

theorem addUse (h : s.ReadsUnwritten) {v o : Nat} (hs : s.addUse v o = .ok t) : t.ReadsUnwritten := by
  obtain ⟨_, -, hs⟩ := Except.bind_eq_ok hs
  cases hs
  exact h.modifyVn v fun _ hd => hd

theorem removeUse (h : s.ReadsUnwritten) {v o : Nat} (hs : s.removeUse v o = .ok t) :
    t.ReadsUnwritten := by
  obtain ⟨_, -, hs⟩ := Except.bind_eq_ok hs
  cases hs
  exact h.modifyVn v fun _ hd => hd

/-- Placing an unwritten varnode into an input slot. -/
theorem setInput (h : s.ReadsUnwritten) {o v slot : Nat} (hv : ∃ y, s.vn? v = some y ∧ y.defOp = none)
    (hs : s.setInput o v slot = .ok t) : t.ReadsUnwritten := by
  unfold Store.setInput at hs
  obtain ⟨x, -, hs⟩ := Except.bind_eq_ok hs
  dsimp only at hs
  split at hs
  · cases hs
  · split at hs
    · obtain ⟨s₁, h₁, hs⟩ := Except.bind_eq_ok hs
      have hread := h.modifyOp_read o (g := fun x => { x with inputs := x.inputs.set! slot v }) hv
        fun _ _ hw => Array.mem_or_eq_of_mem_setIfInBounds hw
      exact (hread.removeUse h₁).addUse hs
    · have hread := h.modifyOp_read o (g := fun x => { x with inputs := x.inputs.push v }) hv
        fun _ _ hw => Array.mem_or_eq_of_mem_push hw
      exact hread.addUse hs

/-- Freeing an output keeps every operation's inputs. -/
theorem inputs_unsetOutput {o : Nat} {r : Option Nat} (hs : s.unsetOutput o = .ok (r, t)) (w : Nat) :
    (t.op? w).map (·.inputs) = (s.op? w).map (·.inputs) := by
  unfold Store.unsetOutput at hs
  obtain ⟨x, -, hs⟩ := Except.bind_eq_ok hs
  split at hs
  · cases hs
    rfl
  · cases hs
    rw [op?_modifyVn, op?_modifyOp]
    split
    · rw [Option.map_map]
      rfl
    · rfl

theorem unsetOutput (h : s.ReadsUnwritten) {o : Nat} {r : Option Nat}
    (hs : s.unsetOutput o = .ok (r, t)) : t.ReadsUnwritten := by
  unfold Store.unsetOutput at hs
  obtain ⟨x, -, hs⟩ := Except.bind_eq_ok hs
  split at hs
  · cases hs
    exact h
  · cases hs
    refine (h.modifyOp o ?_).modifyVn _ ?_
    · intro x
      rfl
    · intro y _
      rfl

/-- Binding a varnode that nothing reads as an output. -/
theorem setOutput (h : s.ReadsUnwritten) {o v : Nat} (hv : ∀ o x, s.op? o = some x → v ∉ x.inputs)
    (hs : s.setOutput o v = .ok t) : t.ReadsUnwritten := by
  unfold Store.setOutput at hs
  obtain ⟨y, -, hs⟩ := Except.bind_eq_ok hs
  split at hs
  · cases hs
  · obtain ⟨⟨r, s₁⟩, h₁, hs⟩ := Except.bind_eq_ok hs
    cases hs
    -- freeing the old output reads nothing new, so `v` is still unread
    have hv₁ : ∀ o x, s₁.op? o = some x → v ∉ x.inputs := by
      intro w x hx
      have hin := inputs_unsetOutput h₁ w
      rw [hx, Option.map_some] at hin
      obtain ⟨x₀, hx₀, hu⟩ := Option.map_eq_some_iff.mp hin.symm
      exact hu ▸ hv w x₀ hx₀
    refine ((h.unsetOutput h₁).modifyVn_of_unread hv₁ _).modifyOp o ?_
    intro x
    rfl

/-- A new varnode bound as an output is read by nothing yet. -/
theorem createOutput (h : s.ReadsUnwritten) {o : Nat} {loc : Location} {v : Nat}
    (hs : s.createOutput o loc = .ok (v, t)) : t.ReadsUnwritten := by
  unfold Store.createOutput at hs
  obtain ⟨t', ht', hs⟩ := Except.bind_eq_ok hs
  cases hs
  refine (h.newVarnode loc.size loc.addr).setOutput (fun w x hx hv => ?_) ht'
  rw [op?_newVarnode] at hx
  exact h.ne_size hx hv rfl

/-- A new operation reads nothing. -/
theorem newOp (h : s.ReadsUnwritten) {opc : Opcode} {q : SeqNum} {o : Nat}
    (hs : s.newOp opc q = .ok (o, t)) : t.ReadsUnwritten := by
  unfold Store.newOp at hs
  split at hs
  · cases hs
  · cases hs
    intro w y v hw hv
    rw [op?_push rfl] at hw
    split at hw
    · cases hw
      simp at hv
    · exact h w y v hw hv

theorem markAlive (h : s.ReadsUnwritten) {o : Nat} (hs : s.markAlive o = .ok t) : t.ReadsUnwritten := by
  obtain ⟨_, -, hs⟩ := Except.bind_eq_ok hs
  cases hs
  exact h.modifyOp o fun _ => rfl

end ReadsUnwritten

/-- A new varnode is written by nothing. -/
theorem defOp_newVarnode (s : Store) (size : Nat) (addr : Address) :
    ∃ y, (s.newVarnode size addr).2.vn? (s.newVarnode size addr).1 = some y ∧ y.defOp = none :=
  ⟨_, by rw [fst_newVarnode, vn?_newVarnode, if_pos rfl], rfl⟩

theorem readsUnwritten_empty (c : Nat) (u : Option Nat) : (Store.empty c u).ReadsUnwritten := by
  intro o x v hx
  simp [Store.empty, op?] at hx

end Store

namespace Function

variable {ctx : Context} {f g : Function}

/-! ## What flow following does to the store -/

/-- A property of stores that flow following keeps: decoding an instruction keeps it, and so
does marking a block start. -/
structure FlowInvariant (ctx : Context) (Q : Store → Prop) : Prop where
  instantiate : ∀ {f g : Function} {addr : Address} {listed : List ListedOp} {ops : List Nat},
    Q f.store → f.instantiate ctx addr listed = .ok (g, ops) → Q g.store
  mark : ∀ (f : Function) (o : Nat), Q f.store → Q (f.setStartBlock o true).store

namespace FlowInvariant

variable {Q : Store → Prop} (hQ : FlowInvariant ctx Q)
include hQ

theorem examineFlow (addr : Address) (size : Nat) (ops : List Nat) (hf : Q f.store) :
    Q (f.examineFlow addr size ops).1.store := by
  refine foldl_invariant (fun g => Q g.store) (fun g p hg => ?_) _ f hf
  rcases examineOp_store g addr size ops p.2 p.1 with he | ⟨t, he⟩
  · exact he ▸ hg
  · exact he ▸ hQ.mark g t hg

/-- Decoding along fallthrough: each step stops with the store as it is, or decodes one
instruction and records its flow effects. -/
theorem processFrom :
    ∀ (fuel : Nat) {f g : Function} {cur : Address} {ok : Bool}, Q f.store →
      processFrom ctx fuel f cur = .ok (g, ok) → Q g.store
  | 0, f, g, cur, ok, hf, h => by
    cases h
    exact hf
  | fuel + 1, f, g, cur, ok, hf, h => by
    rcases processFrom_succ_cases h with hs | ⟨len, listed, f₁, ops, seq, F, -, hi, -, rfl, hnext⟩
    · exact hs.store ▸ hf
    have hf₁ : Q f₁.store := hQ.instantiate (f := { f with instCount := f.instCount + 1 }) hf hi
    have h₃ := hQ.examineFlow (f := f₁.addVisit cur ⟨seq, max len 1⟩) cur (max len 1) ops hf₁
    rcases hnext with ⟨-, hnext⟩ | ⟨-, rfl, -⟩
    · exact processFrom fuel h₃ hnext
    · exact h₃

theorem followLoop :
    ∀ (fuel : Nat) {f g : Function}, Q f.store → followLoop ctx fuel f = .ok g → Q g.store
  | 0, f, g, hf, h => by
    cases h
    exact hf
  | fuel + 1, f, g, hf, h => by
    rcases followLoop_succ_cases h with ⟨-, rfl⟩ | ⟨a, rest, f₁, ok, -, h₁, hnext⟩
    · exact hf
    have hf₁ := hQ.processFrom _ (f := { f with pending := rest }) hf h₁
    rcases hnext with ⟨-, hnext⟩ | ⟨-, rfl⟩
    · exact followLoop fuel hf₁ hnext
    · exact hf₁

theorem followFlow (hf : Q f.store) (h : f.followFlow ctx = .ok g) : Q g.store := by
  obtain ⟨f₁, h₁, hs⟩ := followFlow_ok h
  exact hs.store ▸ hQ.followLoop _ hf h₁

theorem discoverLoop :
    ∀ (fuel : Nat) {f g : Function}, Q f.store → discoverLoop ctx fuel f = .ok g → Q g.store
  | 0, f, g, hf, h => by
    cases h
    exact hf
  | fuel + 1, f, g, hf, h => by
    obtain ⟨f₁, h₁, hnext⟩ := discoverLoop_succ_cases h
    have hf₁ := hQ.followFlow hf h₁
    rcases hnext with ⟨-, rfl⟩ | ⟨f₂, n, -, h₂, hnext⟩
    · exact hf₁
    -- jump-table recovery works on a scratch copy
    have hf₂ : Q f₂.store := (recoverJumpTables_store_calls h₂).1 ▸ hf₁
    rcases hnext with ⟨-, rfl⟩ | ⟨-, hnext⟩
    · exact hf₂
    · exact discoverLoop fuel hf₂ hnext

/-- **Discovery keeps what flow following keeps.** -/
theorem discoverFlow (hf : Q f.store) (h : f.discoverFlow ctx = .ok g) : Q g.store := by
  unfold Function.discoverFlow at h
  refine hQ.discoverLoop _ ?_ h
  split <;> exact hf

end FlowInvariant

/-! ## Reads stay unwritten -/

/-- Decoding an instruction reads every input into a new varnode. -/
theorem readsUnwritten_instantiate {addr : Address} {listed : List ListedOp} {ops : List Nat}
    (hi : f.instantiate ctx addr listed = .ok (g, ops)) (h : f.store.ReadsUnwritten) :
    g.store.ReadsUnwritten := by
  unfold instantiate at hi
  dsimp only at hi
  obtain ⟨⟨store, ops'⟩, hfold, hi⟩ := Except.bind_eq_ok hi
  cases hi
  have hstore : store.ReadsUnwritten := by
    refine foldlM_ok_invariant (fun acc => acc.1.ReadsUnwritten) hfold h ?_
    rintro e - ⟨s, os⟩ y hs hstep
    dsimp only at hstep hs
    obtain ⟨⟨o, s₁⟩, h₁, hstep⟩ := Except.bind_eq_ok hstep
    obtain ⟨s₂, h₂, hstep⟩ := Except.bind_eq_ok hstep
    obtain ⟨s₃, h₃, hstep⟩ := Except.bind_eq_ok hstep
    have hs₂ : s₂.ReadsUnwritten :=
      (Store.ReadsUnwritten.newOp (s := (s.newSeq addr).2) hs h₁).markAlive h₂
    have hs₃ : s₃.ReadsUnwritten := by
      refine foldlM_ok_invariant (fun s => s.ReadsUnwritten) h₃ hs₂ ?_
      rintro ⟨vd, slot⟩ - s y hs hstep
      dsimp only at hstep
      refine Store.ReadsUnwritten.setInput ?_ ?_ hstep
      · split
        · refine (hs.newVarnode vd.size vd.addr).modifyVn _ ?_
          intro _ hd
          exact hd
        · exact hs.newVarnode vd.size vd.addr
      -- the input read is the varnode just created, marked or not as a code address
      · obtain ⟨z, hz, hzd⟩ := Store.defOp_newVarnode s vd.size vd.addr
        split
        · rw [Store.vn?_modifyVn, if_pos rfl, hz]
          exact ⟨_, rfl, hzd⟩
        · exact ⟨z, hz, hzd⟩
    split at hstep
    · obtain ⟨⟨v, s₄⟩, h₄, hstep⟩ := Except.bind_eq_ok hstep
      cases hstep
      exact hs₃.createOutput h₄
    · cases hstep
      exact hs₃
  split
  · exact hstore.modifyOp _ fun _ => rfl
  · exact hstore

/-- Reading only unwritten varnodes is kept by flow following. -/
theorem flowInvariant_readsUnwritten (ctx : Context) : FlowInvariant ctx Store.ReadsUnwritten :=
  ⟨fun hf hi => readsUnwritten_instantiate hi hf, fun _ o h => h.modifyOp o fun _ => rfl⟩

/-- A function whose store reads only unwritten varnodes has no read linked to a write. -/
theorem readsUnlinked_of_store (h : f.store.ReadsUnwritten) : f.ReadsUnlinked := by
  intro o x v hx hv
  obtain ⟨y, hy, hd⟩ := h o x v hx hv
  simp [writerOf, hy, hd]

/-- Block generation changes no operation's inputs and no varnode. -/
theorem readsUnwritten_generateBlocks (h : f.store.ReadsUnwritten) :
    f.generateBlocks.store.ReadsUnwritten := by
  have hs := sameFlow_generateBlocks f
  intro o x v hx hv
  have hin := hs.inputs o
  rw [hx, Option.map_some] at hin
  obtain ⟨x₀, hx₀, hu⟩ := Option.map_eq_some_iff.mp hin.symm
  rw [hs.vn]
  exact h o x₀ v hx₀ (hu ▸ hv)

/-- **Discovered functions read only unwritten varnodes.** Every function that discovery finds
from a new one reads, once partitioned into blocks, only varnodes that nothing writes. -/
theorem readsUnlinked_discovered {name : String} {addr : Address} {spaces : SpaceTable}
    {instMax : Nat} (h : (init name addr spaces instMax).discoverFlow ctx = .ok g) :
    g.generateBlocks.ReadsUnlinked :=
  readsUnlinked_of_store (readsUnwritten_generateBlocks
    ((flowInvariant_readsUnwritten ctx).discoverFlow (Store.readsUnwritten_empty _ _) h))

end Function

end MicroSsa
