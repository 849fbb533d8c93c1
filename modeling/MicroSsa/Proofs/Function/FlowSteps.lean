import MicroSsa.Function.Discover
import MicroSsa.Proofs.Store.Requests
/-!
# The steps of flow following

Flow following is three loops on fuel, one inside the other: decoding along fallthrough
(`Function.processFrom`), following the pending addresses (`Function.followLoop`), and the rounds
of discovery that alternate it with jump-table recovery (`Function.discoverLoop`). Each lemma
here says everything one step of a loop can do, so that an invariant of flow following is proved
by induction on the fuel with one case per outcome, without opening the loop again:

* a step of decoding stops with the work done so far untouched (`Function.SameWork`), or decodes
  a fresh instruction (`Function.DecodesAt`), records it with its flow effects, and goes on or
  stops (`Function.processFrom_succ_cases`);
* the flow effects of an operation change the store only by marking a block start
  (`Function.examineOp_store`);
* a step of following takes the next pending address and decodes from it, then goes on, or
  abandons the rest when the instruction limit is hit (`Function.followLoop_succ_cases`);
* a round of discovery follows the flow, then stops, or recovers jump tables and goes on when it
  found one (`Function.discoverLoop_succ_cases`).
-/

namespace MicroSsa

namespace Function

variable {ctx : Context} {f g : Function}

/-- `g` keeps the work of `f`: its operations and varnodes, decoded instructions, calls, pending
addresses, indirect branches, tables and recovery failures. Only marks, block starts and bad
addresses may differ. -/
structure SameWork (f g : Function) : Prop where
  store : g.store = f.store
  visited : g.visited = f.visited
  calls : g.calls = f.calls
  pending : g.pending = f.pending
  indirects : g.indirects = f.indirects
  unresolved : g.unresolved = f.unresolved
  jumpTables : g.jumpTables = f.jumpTables

/-- The instruction at `cur`, of length `len` with listed operations `listed`, can be decoded:
it is not decoded yet, lies inside no decoded instruction, at code, within the instruction limit,
and runs into no decoded instruction above it. -/
structure DecodesAt (ctx : Context) (f : Function) (cur : Address) (len : Nat)
    (listed : List ListedOp) : Prop where
  fresh : (f.visitAt? cur).isSome = false
  outside : f.insidePrevious cur = false
  code : ctx.image.isCode cur = true
  room : f.instCount < f.instMax
  decode : ctx.decoder.decode cur = .instruction len listed
  apart : f.overlapsNext cur (max len 1) = false

/-- **One step of decoding along fallthrough**: it stops with the work untouched, or it decodes
the instruction at `cur`, records it with the sequence number of its first operation, records
its flow effects, and goes on at the next address when control falls through. -/
theorem processFrom_succ_cases {fuel : Nat} {cur : Address} {ok : Bool}
    (h : processFrom ctx (fuel + 1) f cur = .ok (g, ok)) :
    SameWork f g ∨ ∃ len listed f₁ ops seq F, DecodesAt ctx f cur len listed ∧
      instantiate ctx { f with instCount := f.instCount + 1 } cur listed = .ok (f₁, ops) ∧
      seq = ((ops.head? >>= f₁.store.op?).map (·.seq)).getD ⟨cur, 0⟩ ∧
      (f₁.addVisit cur ⟨seq, max len 1⟩).examineFlow cur (max len 1) ops = F ∧
      (F.2 = true ∧ processFrom ctx fuel F.1 (cur.add (UInt64.ofNat (max len 1))) = .ok (g, ok) ∨
        F.2 = false ∧ g = F.1 ∧ ok = true) := by
  rw [processFrom] at h
  split at h
  · cases h
    exact .inl ⟨rfl, rfl, rfl, rfl, rfl, rfl, rfl⟩
  rename_i hfresh
  split at h
  · cases h
    exact .inl ⟨rfl, rfl, rfl, rfl, rfl, rfl, rfl⟩
  rename_i hout
  split at h
  · cases h
    exact .inl ⟨rfl, rfl, rfl, rfl, rfl, rfl, rfl⟩
  rename_i hcode
  split at h
  · cases h
    exact .inl ⟨rfl, rfl, rfl, rfl, rfl, rfl, rfl⟩
  rename_i hroom
  split at h
  · cases h
    exact .inl ⟨rfl, rfl, rfl, rfl, rfl, rfl, rfl⟩
  · cases h
    exact .inl ⟨rfl, rfl, rfl, rfl, rfl, rfl, rfl⟩
  rename_i len listed hdec
  dsimp only at h
  split at h
  · cases h
    exact .inl ⟨rfl, rfl, rfl, rfl, rfl, rfl, rfl⟩
  rename_i hapart
  obtain ⟨⟨f₁, ops⟩, hi, h⟩ := Except.bind_eq_ok h
  have hD : DecodesAt ctx f cur len listed :=
    ⟨Bool.eq_false_iff.mpr hfresh, Bool.eq_false_iff.mpr hout, by simpa using hcode,
      Nat.lt_of_not_le hroom, hdec, Bool.eq_false_iff.mpr hapart⟩
  refine .inr ⟨len, listed, f₁, ops, _, _, hD, hi, rfl, rfl, ?_⟩
  dsimp only at h
  split at h
  · exact .inl ⟨‹_›, h⟩
  · rename_i hstops
    cases h
    exact .inr ⟨Bool.eq_false_iff.mpr hstops, rfl, rfl⟩

/-- The flow effects of one operation change the store only by marking a block start. -/
theorem examineOp_store (f : Function) (addr : Address) (size : Nat) (ops : List Nat) (i o : Nat) :
    (f.examineOp addr size ops i o).store = f.store ∨
      ∃ t, (f.examineOp addr size ops i o).store = (f.setStartBlock t true).store := by
  unfold Function.examineOp
  split
  · exact .inl rfl
  · split
    case h_1 | h_2 =>
      split
      · exact .inl rfl
      · split
        · dsimp only
          split
          · split
            · exact .inr ⟨_, rfl⟩
            · exact .inl rfl
          · split <;> exact .inl rfl
        · exact .inl rfl
    all_goals exact .inl rfl

/-- **One step of following the pending addresses**: with none left it stops; otherwise it
decodes from the next one, then goes on, or, when the instruction limit stopped decoding,
abandons the addresses still pending. -/
theorem followLoop_succ_cases {fuel : Nat} (h : followLoop ctx (fuel + 1) f = .ok g) :
    (f.pending = [] ∧ g = f) ∨
      ∃ a rest f₁ ok, f.pending = a :: rest ∧
        processFrom ctx (ctx.decoder.entries.length + 1) { f with pending := rest } a = .ok (f₁, ok) ∧
        (ok = true ∧ followLoop ctx fuel f₁ = .ok g ∨ ok = false ∧ g = { f₁ with pending := [] }) := by
  rw [followLoop] at h
  split at h
  · cases h
    exact .inl ⟨‹_›, rfl⟩
  · rename_i a rest hpend
    obtain ⟨⟨f₁, ok⟩, h₁, h⟩ := Except.bind_eq_ok h
    refine .inr ⟨a, rest, f₁, ok, hpend, h₁, ?_⟩
    dsimp only at h
    split at h
    · exact .inl ⟨‹_›, h⟩
    · rename_i hlimit
      cases h
      exact .inr ⟨Bool.eq_false_iff.mpr hlimit, rfl⟩

/-- Following the flow ends with the work of the last step of following, marked. -/
theorem followFlow_ok (h : f.followFlow ctx = .ok g) :
    ∃ f₁, followLoop ctx (f.pending.length + ctx.decoder.opCount + 1) f = .ok f₁ ∧ SameWork f₁ g := by
  obtain ⟨f₁, h₁, h⟩ := Except.bind_eq_ok h
  cases h
  refine ⟨f₁, h₁, ?_⟩
  split <;> exact ⟨rfl, rfl, rfl, rfl, rfl, rfl, rfl⟩

/-- **One round of discovery**: it follows the flow, then stops when recovery is off or the
instruction limit was hit; otherwise it recovers jump tables, and goes on when it found one. -/
theorem discoverLoop_succ_cases {fuel : Nat} (h : discoverLoop ctx (fuel + 1) f = .ok g) :
    ∃ f₁, f.followFlow ctx = .ok f₁ ∧
      ((!ctx.config.jumpTableRecovery || f₁.flags.instructionLimit) = true ∧ g = f₁ ∨
        ∃ f₂ n, (!ctx.config.jumpTableRecovery || f₁.flags.instructionLimit) = false ∧
          f₁.recoverJumpTables ctx = .ok (f₂, n) ∧
          (n = 0 ∧ g = f₂ ∨ n ≠ 0 ∧ discoverLoop ctx fuel f₂ = .ok g)) := by
  rw [discoverLoop] at h
  obtain ⟨f₁, h₁, h⟩ := Except.bind_eq_ok h
  refine ⟨f₁, h₁, ?_⟩
  split at h
  · cases h
    exact .inl ⟨‹_›, rfl⟩
  · rename_i hstop
    obtain ⟨⟨f₂, n⟩, h₂, h⟩ := Except.bind_eq_ok h
    refine .inr ⟨f₂, n, Bool.eq_false_iff.mpr hstop, h₂, ?_⟩
    dsimp only at h
    split at h
    · rename_i hnone
      cases h
      exact .inl ⟨by simpa using hnone, rfl⟩
    · rename_i hfound
      exact .inr ⟨by simpa using hfound, h⟩

end Function

end MicroSsa
