import MicroSsa.Proofs.Session.CallTargets
import Mathlib.Data.Finset.Card
/-!
# Linking the calls of a session

Analysing a function discovers its code, analyses every function it calls, and only then
finishes the function and stores it. A call into a function whose analysis is under way (an
ancestor in this recursion, or the function itself) is linked as in progress and recorded in
the callee's waiting list; when the callee completes, the calls waiting on it are resolved.

The invariant of a session (`Session.Linking`) says how every call of a stored function
stands: unknown when it has no target or its target is not code, and otherwise linked to the
function registered at the target, which is done, or is still under analysis with the call
among those it will resolve. How a session may change during an analysis is `Session.Evolves`:
statuses only advance, stored functions are never touched again, and the waiting lists of
functions under way only gain the call sites of functions that were pending.

The recursion runs on fuel. Each nested analysis starts a pending function, and a function is
registered only at the target of a call, which is the first operand of a listed operation; so
the pending functions and the first operands no function is registered at yet
(`Session.backlog`) bound the depth of the recursion, and that bound lies below the fuel a
session gives every top-level analysis.
-/

namespace MicroSsa

namespace Session

/-! ## Reading a session -/

/-- The call sites waiting for function `id` to complete. -/
def waitingOf (s : Session) (id : Nat) : List (Nat × Nat) :=
  (s.funcs[id]?.map (·.waiting)).getD []

variable {s s' : Session}

theorem statusOf_eq (s : Session) (j : Nat) :
    s.statusOf j = (s.funcs[j]?.map (·.status)).getD .pending := rfl

theorem findFunc_eq (s : Session) (a : Address) :
    s.findFunc a = (s.funcs.map (·.addr)).findIdx? (· == a) := by
  rw [Array.findIdx?_map]
  rfl

theorem statusOf_of_getElem? {j : Nat} {e : Registered} (h : s.funcs[j]? = some e) :
    s.statusOf j = e.status := by
  simp [statusOf, h]

theorem waitingOf_of_getElem? {j : Nat} {e : Registered} (h : s.funcs[j]? = some e) :
    s.waitingOf j = e.waiting := by
  simp [waitingOf, h]

/-- A function registered somewhere has an index below the number of functions. -/
theorem lt_of_findFunc {a : Address} {j : Nat} (h : s.findFunc a = some j) : j < s.funcs.size := by
  obtain ⟨hj, -⟩ := Array.findIdx?_eq_some_iff_getElem.mp h
  exact hj

theorem addr_of_findFunc {a : Address} {j : Nat} (h : s.findFunc a = some j) :
    ∃ e, s.funcs[j]? = some e ∧ e.addr = a := by
  obtain ⟨hj, hp, -⟩ := Array.findIdx?_eq_some_iff_getElem.mp h
  exact ⟨_, Array.getElem?_eq_getElem hj, by simpa using hp⟩

/-- A function index beyond the registered ones reads as pending. -/
theorem statusOf_of_le {j : Nat} (h : s.funcs.size ≤ j) : s.statusOf j = .pending := by
  simp [statusOf, Array.getElem?_eq_none h]

/-! ## Changing one function -/

section Modify

variable (s : Session) (id : Nat) (g : Registered → Registered)

@[simp] theorem ctx_modify : (s.modify id g).ctx = s.ctx := rfl

@[simp] theorem size_modify : (s.modify id g).funcs.size = s.funcs.size := by
  simp [modify]

theorem getElem?_modify (j : Nat) :
    (s.modify id g).funcs[j]? = if id = j then s.funcs[j]?.map g else s.funcs[j]? := by
  simp only [modify, Array.getElem?_modify]

theorem statusOf_modify_ne {j : Nat} (hj : id ≠ j) : (s.modify id g).statusOf j = s.statusOf j := by
  simp [statusOf, getElem?_modify, hj]

theorem waitingOf_modify_ne {j : Nat} (hj : id ≠ j) :
    (s.modify id g).waitingOf j = s.waitingOf j := by
  simp [waitingOf, getElem?_modify, hj]

/-- A change that keeps every address finds every function where it was. -/
theorem findFunc_modify (hg : ∀ e, (g e).addr = e.addr) (a : Address) :
    (s.modify id g).findFunc a = s.findFunc a := by
  rw [findFunc_eq, findFunc_eq]
  congr 1
  apply Array.ext
  · simp
  · intro j h₁ h₂
    simp only [modify, Array.getElem_map, Array.getElem_modify]
    split <;> simp [hg]

end Modify

/-! ## Registering a function -/

theorem addFunction_eq {name : String} {a : Address} {size : UInt64} {c : Nat}
    (h : s.addFunction name a size = some (s', c)) :
    (s.findFunc a = some c ∧ s' = s) ∨
    (s.findFunc a = none ∧ s.ctx.image.isCode a = true ∧ c = s.funcs.size ∧
      ∃ n, s' = { s with funcs := s.funcs.push { name := n, addr := a, size := size } }) := by
  unfold addFunction at h
  split at h
  · cases h
    exact Or.inl ⟨by assumption, rfl⟩
  · split at h
    · cases h
    · cases h
      refine Or.inr ⟨by assumption, ?_, rfl, _, rfl⟩
      simpa using (by assumption : ¬(!s.ctx.image.isCode a) = true)

theorem isCode_of_addFunction_none {name : String} {a : Address} {size : UInt64}
    (h : s.addFunction name a size = none) : s.ctx.image.isCode a = false := by
  unfold addFunction at h
  split at h
  · cases h
  · split at h
    · simpa using (by assumption : (!s.ctx.image.isCode a) = true)
    · cases h

theorem findFunc_push (e : Registered) (a : Address) :
    ({ s with funcs := s.funcs.push e } : Session).findFunc a =
      (s.findFunc a).or (if e.addr == a then some s.funcs.size else none) := by
  simp only [findFunc, Array.findIdx?_push]

end Session

namespace Function

/-- The calls of `f` that `W` lists for the caller `j`, resolved to `id`. -/
def resolveSites (W : List (Nat × Nat)) (id j : Nat) (f : Function) : Function :=
  W.foldl (fun f w => if w.1 = j then f.setCallStatus w.2 (.resolved id) else f) f

theorem getElem?_setCallStatus (f : Function) (idx : Nat) (st : CallStatus) (i : Nat) :
    (f.setCallStatus idx st).calls[i]? =
      if idx = i then f.calls[i]?.map fun c => { c with status := st } else f.calls[i]? := by
  simp only [setCallStatus, Array.getElem?_modify]

@[simp] theorem size_setCallStatus (f : Function) (idx : Nat) (st : CallStatus) :
    (f.setCallStatus idx st).calls.size = f.calls.size := by
  simp [setCallStatus]

/-- A call listed among the sites is resolved; every other call is as it was. -/
theorem getElem?_resolveSites (W : List (Nat × Nat)) (id j : Nat) (f : Function) (idx : Nat) :
    (resolveSites W id j f).calls[idx]? = f.calls[idx]?.map fun c =>
      if (j, idx) ∈ W then { c with status := .resolved id } else c := by
  induction W generalizing f with
  | nil => simp [resolveSites]
  | cons w W ih =>
    rw [resolveSites, List.foldl_cons, ← resolveSites, ih]
    obtain ⟨caller, i⟩ := w
    by_cases hc : caller = j
    · subst hc
      rw [if_pos rfl, getElem?_setCallStatus]
      by_cases hi : i = idx
      · subst hi
        cases f.calls[i]? <;> simp
      · cases f.calls[idx]? <;> simp [hi, Ne.symm hi]
    · rw [if_neg hc]
      cases f.calls[idx]? <;> simp [Ne.symm hc]

theorem getElem?_resolveSites_of_not_mem {W : List (Nat × Nat)} {id j idx : Nat}
    (h : (j, idx) ∉ W) (f : Function) : (resolveSites W id j f).calls[idx]? = f.calls[idx]? := by
  rw [getElem?_resolveSites]
  cases f.calls[idx]? <;> simp [h]

/-- Sites of other callers leave a function as it is. -/
theorem resolveSites_of_forall_ne {W : List (Nat × Nat)} {id j : Nat} (h : ∀ w ∈ W, w.1 ≠ j)
    (f : Function) : resolveSites W id j f = f := by
  induction W generalizing f with
  | nil => rfl
  | cons w W ih =>
    rw [resolveSites, List.foldl_cons, ← resolveSites, if_neg (h w List.mem_cons_self)]
    exact ih (fun w hw => h w (List.mem_cons_of_mem _ hw)) f

@[simp] theorem size_resolveSites (W : List (Nat × Nat)) (id j : Nat) (f : Function) :
    (resolveSites W id j f).calls.size = f.calls.size := by
  induction W generalizing f with
  | nil => rfl
  | cons w W ih =>
    rw [resolveSites, List.foldl_cons, ← resolveSites, ih]
    split <;> simp

end Function

namespace Session

variable {s s' : Session}

/-- Resolving the calls waiting on `id` changes only the calls of the stored functions. -/
theorem getElem?_resolveWaiting (s : Session) (id : Nat) (W : List (Nat × Nat)) (j : Nat) :
    (s.resolveWaiting id W).funcs[j]? =
      s.funcs[j]?.map fun e => { e with func := e.func.map (Function.resolveSites W id j) } := by
  induction W generalizing s with
  | nil =>
    show s.funcs[j]? = _
    cases s.funcs[j]? with
    | none => rfl
    | some e =>
      obtain ⟨_, _, _, _, _ | _, _⟩ := e <;> rfl
  | cons w W ih =>
    obtain ⟨caller, i⟩ := w
    rw [resolveWaiting, List.foldl_cons, ← resolveWaiting, ih, getElem?_modify]
    by_cases hc : caller = j
    · subst hc
      rw [if_pos rfl]
      cases s.funcs[caller]? with
      | none => rfl
      | some e =>
        obtain ⟨_, _, _, _, _ | _, _⟩ := e <;> simp [Function.resolveSites]
    · rw [if_neg hc]
      cases s.funcs[j]? with
      | none => rfl
      | some e =>
        obtain ⟨_, _, _, _, _ | _, _⟩ := e <;> simp [Function.resolveSites, hc]

@[simp] theorem ctx_resolveWaiting (s : Session) (id : Nat) (W : List (Nat × Nat)) :
    (s.resolveWaiting id W).ctx = s.ctx := by
  induction W generalizing s with
  | nil => rfl
  | cons w W ih =>
    rw [resolveWaiting, List.foldl_cons, ← resolveWaiting, ih]
    rfl

@[simp] theorem size_resolveWaiting (s : Session) (id : Nat) (W : List (Nat × Nat)) :
    (s.resolveWaiting id W).funcs.size = s.funcs.size := by
  induction W generalizing s with
  | nil => rfl
  | cons w W ih =>
    obtain ⟨caller, i⟩ := w
    rw [resolveWaiting, List.foldl_cons, ← resolveWaiting, ih]
    exact size_modify _ _ _

theorem findFunc_resolveWaiting (s : Session) (id : Nat) (W : List (Nat × Nat)) (a : Address) :
    (s.resolveWaiting id W).findFunc a = s.findFunc a := by
  induction W generalizing s with
  | nil => rfl
  | cons w W ih =>
    obtain ⟨caller, i⟩ := w
    rw [resolveWaiting, List.foldl_cons, ← resolveWaiting, ih]
    exact findFunc_modify s caller
      (fun e => { e with func := e.func.map (·.setCallStatus i (.resolved id)) }) (fun _ => rfl) a

/-! ## What is left to analyse -/

/-- The first operands of the listing at which no function is registered yet: the call targets
that could still register a function. -/
def unlisted (s : Session) : Finset Address :=
  s.ctx.decoder.firstOperands.toFinset.filter fun t => s.findFunc t = none

/-- The functions a session may still start: the pending ones, and one for each first operand
no function is registered at. -/
def backlog (s : Session) : Nat :=
  ((Finset.range s.funcs.size).filter fun j => s.statusOf j = .pending).card + s.unlisted.card

theorem card_unlisted_le (s : Session) : s.unlisted.card ≤ s.ctx.decoder.opCount :=
  calc s.unlisted.card
    _ ≤ s.ctx.decoder.firstOperands.toFinset.card := Finset.card_filter_le _ _
    _ ≤ s.ctx.decoder.firstOperands.length := List.toFinset_card_le _
    _ ≤ s.ctx.decoder.opCount := Decoder.length_firstOperands_le _

/-- The fuel of a session exceeds what is left to analyse. -/
theorem backlog_lt_fuel (s : Session) : s.backlog < s.fuel := by
  have hp : ((Finset.range s.funcs.size).filter fun j => s.statusOf j = .pending).card ≤
      s.funcs.size :=
    (Finset.card_filter_le _ _).trans (Finset.card_range _).le
  have hu := card_unlisted_le s
  unfold backlog fuel
  omega

/-- Sessions that find the same functions at the same addresses leave the same targets. -/
theorem unlisted_congr (hc : s'.ctx = s.ctx) (hf : ∀ a, s'.findFunc a = s.findFunc a) :
    s'.unlisted = s.unlisted := by
  unfold unlisted
  rw [hc]
  exact Finset.filter_congr fun a _ => by rw [hf]

theorem unlisted_modify (s : Session) (id : Nat) (g : Registered → Registered)
    (hg : ∀ e, (g e).addr = e.addr) : (s.modify id g).unlisted = s.unlisted :=
  unlisted_congr (ctx_modify s id g) (findFunc_modify s id g hg)

/-- A change that keeps the number of functions, their addresses and which are pending keeps
what is left to analyse. -/
theorem backlog_congr (hc : s'.ctx = s.ctx) (hsize : s'.funcs.size = s.funcs.size)
    (hf : ∀ a, s'.findFunc a = s.findFunc a)
    (hp : ∀ j, s'.statusOf j = .pending ↔ s.statusOf j = .pending) : s'.backlog = s.backlog := by
  unfold backlog
  rw [unlisted_congr hc hf, hsize, Finset.filter_congr fun j _ => hp j]

/-- Starting a pending function takes one off what is left to analyse. -/
theorem backlog_start {id : Nat} {e : Registered} (he : s.funcs[id]? = some e)
    (hp : e.status = .pending) (g : Registered → Registered) (hg : ∀ e, (g e).addr = e.addr)
    (hs : (g e).status = .processing) : (s.modify id g).backlog + 1 = s.backlog := by
  have hid : id < s.funcs.size := (Array.getElem?_eq_some_iff.mp he).1
  have hset : ((Finset.range s.funcs.size).filter fun j => s.statusOf j = .pending) =
      insert id ((Finset.range s.funcs.size).filter fun j => (s.modify id g).statusOf j = .pending) := by
    ext j
    simp only [Finset.mem_filter, Finset.mem_range, Finset.mem_insert]
    by_cases hj : id = j
    · subst hj
      simp [hid, statusOf_of_getElem? he, hp]
    · rw [statusOf_modify_ne s id g hj]
      constructor
      · exact fun h => Or.inr h
      · rintro (rfl | h)
        · exact absurd rfl hj
        · exact h
  have hnot : id ∉ (Finset.range s.funcs.size).filter fun j => (s.modify id g).statusOf j = .pending := by
    simp [statusOf, getElem?_modify, he, hs]
  unfold backlog
  rw [hset, Finset.card_insert_of_notMem hnot, size_modify, unlisted_modify s id g hg]
  omega

/-- Registering a function at an unlisted first operand moves it from one part of what is left
to analyse to the other. -/
theorem backlog_push {e : Registered} (hp : e.status = .pending) (hnone : s.findFunc e.addr = none)
    (hmem : e.addr ∈ s.ctx.decoder.firstOperands) :
    ({ s with funcs := s.funcs.push e } : Session).backlog = s.backlog ∧
      ({ s with funcs := s.funcs.push e } : Session).funcs.size +
        ({ s with funcs := s.funcs.push e } : Session).unlisted.card =
        s.funcs.size + s.unlisted.card := by
  set s' : Session := { s with funcs := s.funcs.push e }
  have hsize : s'.funcs.size = s.funcs.size + 1 := by simp [s']
  -- the pending functions gain the new one
  have hpend : ((Finset.range s'.funcs.size).filter fun j => s'.statusOf j = .pending) =
      insert s.funcs.size ((Finset.range s.funcs.size).filter fun j => s.statusOf j = .pending) := by
    ext j
    simp only [Finset.mem_filter, Finset.mem_range, Finset.mem_insert, hsize]
    by_cases hj : j = s.funcs.size
    · subst hj
      simp [s', statusOf, hp]
    · have hs : s'.statusOf j = s.statusOf j := by
        simp [s', statusOf, Array.getElem?_push, hj]
      rw [hs]
      constructor
      · rintro ⟨hlt, h⟩
        exact Or.inr ⟨by omega, h⟩
      · rintro (h | ⟨hlt, h⟩)
        · exact absurd h hj
        · exact ⟨by omega, h⟩
  -- the unlisted first operands lose its address
  have hunl : s.unlisted = insert e.addr s'.unlisted := by
    ext t
    simp only [unlisted, Finset.mem_filter, List.mem_toFinset, Finset.mem_insert, s',
      findFunc_push]
    by_cases ht : e.addr = t
    · subst ht
      simp [hmem, hnone]
    · have : (e.addr == t) = false := by simpa using ht
      simp [this, Ne.symm ht]
  have hnot : e.addr ∉ s'.unlisted := by
    simp [unlisted, s', findFunc_push, hnone]
  have hnot' : s.funcs.size ∉ (Finset.range s.funcs.size).filter fun j => s.statusOf j = .pending := by
    simp
  unfold backlog
  rw [hpend, Finset.card_insert_of_notMem hnot', hunl, Finset.card_insert_of_notMem hnot, hsize]
  constructor <;> omega

/-! ## The invariant -/

/-- How the call at index `idx` of function `j` stands once linked: with no target it is
unknown; with a target outside code it is unknown; otherwise it is linked to the function
registered at the target, which is done, or still under analysis with the call waiting on it. -/
def CallLinked (s : Session) (j idx : Nat) (c : CallSpec) : Prop :=
  (c.target = none → c.status = .unknown) ∧
  ∀ t, c.target = some t →
    (s.ctx.image.isCode t = false ∧ c.status = .unknown) ∨
    ∃ id, s.findFunc t = some id ∧
      (c.status = .resolved id ∧ s.statusOf id = .done ∨
        c.status = .inProgress id ∧ s.statusOf id = .processing ∧ (j, idx) ∈ s.waitingOf id)

/-- The invariant of a session while its calls are linked. -/
structure Linking (s : Session) : Prop where
  /-- Functions are registered at code addresses only. -/
  code : ∀ (j : Nat) (e : Registered), s.funcs[j]? = some e → s.ctx.image.isCode e.addr = true
  /-- Only a function under analysis has calls waiting on it. -/
  idle : ∀ (j : Nat) (e : Registered), s.funcs[j]? = some e → e.status ≠ .processing → e.waiting = []
  /-- A function that is done holds its analysis, with every call linked. -/
  done : ∀ (j : Nat) (e : Registered), s.funcs[j]? = some e → e.status = .done →
    ∃ f, e.func = some f ∧ ∀ idx c, f.calls[idx]? = some c → s.CallLinked j idx c
  /-- A waiting call site belongs to a function under analysis, or to a done function whose
  call there is in progress towards the function it waits on. -/
  waits : ∀ (j : Nat) (w : Nat × Nat), w ∈ s.waitingOf j → s.statusOf w.1 = .processing ∨
    ∃ (e : Registered) (f : Function) (c : CallSpec), s.funcs[w.1]? = some e ∧ e.status = .done ∧ e.func = some f ∧
      f.calls[w.2]? = some c ∧ c.status = .inProgress j

/-- A linked call stays linked while functions stay registered where they are, functions done
or under analysis stay so, and the calls waiting on the latter stay. -/
theorem CallLinked.mono {j idx : Nat} {c : CallSpec} (hc : s.CallLinked j idx c)
    (hctx : s'.ctx = s.ctx) (hfound : ∀ t id, s.findFunc t = some id → s'.findFunc t = some id)
    (hdone : ∀ id, s.statusOf id = .done → s'.statusOf id = .done)
    (hproc : ∀ id, s.statusOf id = .processing → s'.statusOf id = .processing)
    (hkept : ∀ id, s.statusOf id = .processing → ∀ w ∈ s.waitingOf id, w ∈ s'.waitingOf id) :
    s'.CallLinked j idx c := by
  refine ⟨hc.1, fun t ht => ?_⟩
  rcases hc.2 t ht with ⟨hcode, hst⟩ | ⟨id, hid, ⟨hst, hd⟩ | ⟨hst, hp, hw⟩⟩
  · exact Or.inl ⟨by rw [hctx]; exact hcode, hst⟩
  · exact Or.inr ⟨id, hfound t id hid, Or.inl ⟨hst, hdone id hd⟩⟩
  · exact Or.inr ⟨id, hfound t id hid, Or.inr ⟨hst, hproc id hp, hkept id hp _ hw⟩⟩

/-- A session between analyses: its calls are linked and no analysis is under way. -/
structure Settled (s : Session) : Prop extends Linking s where
  resting : ∀ j : Nat, s.statusOf j ≠ .processing

/-- How a session may change while functions are analysed, `act` being the function whose
analysis may start: the context stays, functions stay registered where they are, a function
that is done is never touched again, a function under analysis stays so and keeps the calls
waiting on it, no other analysis starts that is still under way at the end, and the calls that
start waiting come from functions that were pending. -/
structure Evolves (act : Option Nat) (s s' : Session) : Prop where
  ctx : s'.ctx = s.ctx
  size : s.funcs.size ≤ s'.funcs.size
  found : ∀ (t : Address) (j : Nat), s.findFunc t = some j → s'.findFunc t = some j
  done : ∀ (j : Nat) (e : Registered), s.funcs[j]? = some e → e.status = .done → s'.funcs[j]? = some e
  processing : ∀ j : Nat, s.statusOf j = .processing → s'.statusOf j = .processing
  no_new : ∀ j : Nat, s'.statusOf j = .processing → s.statusOf j = .processing ∨ act = some j
  kept : ∀ j : Nat, s.statusOf j = .processing → ∀ w ∈ s.waitingOf j, w ∈ s'.waitingOf j
  fresh : ∀ (j : Nat) (w : Nat × Nat), w ∈ s'.waitingOf j → w ∉ s.waitingOf j → s.statusOf w.1 = .pending

namespace Evolves

variable {act : Option Nat} {s'' : Session}

theorem refl (act : Option Nat) (s : Session) : Evolves act s s :=
  ⟨rfl, le_refl _, fun _ _ h => h, fun _ _ h _ => h, fun _ h => h, fun _ h => Or.inl h,
    fun _ _ _ h => h, fun _ _ h h' => absurd h h'⟩

theorem statusOf_done (h : Evolves act s s') {j : Nat} (hj : s.statusOf j = .done) :
    s'.statusOf j = .done := by
  cases he : s.funcs[j]? with
  | none => simp [statusOf, he] at hj
  | some e =>
    rw [statusOf_of_getElem? he] at hj
    rw [statusOf_of_getElem? (h.done j e he hj), hj]

/-- A function that is not pending stays so. -/
theorem not_pending (h : Evolves act s s') {j : Nat} (hj : s.statusOf j ≠ .pending) :
    s'.statusOf j ≠ .pending := by
  cases hs : s.statusOf j with
  | pending => exact absurd hs hj
  | processing => rw [h.processing j hs]; decide
  | done => rw [h.statusOf_done hs]; decide

theorem findFunc_none (h : Evolves act s s') {t : Address} (ht : s'.findFunc t = none) :
    s.findFunc t = none := by
  cases hs : s.findFunc t with
  | none => rfl
  | some j => rw [h.found t j hs] at ht; cases ht

theorem weaken (h : Evolves none s s') (act : Option Nat) : Evolves act s s' :=
  { h with no_new := fun j hj => (h.no_new j hj).elim Or.inl fun h => nomatch h }

theorem trans (h₁ : Evolves act s s') (h₂ : Evolves act s' s'') : Evolves act s s'' where
  ctx := h₂.ctx.trans h₁.ctx
  size := h₁.size.trans h₂.size
  found t j hj := h₂.found t j (h₁.found t j hj)
  done j e he hd := h₂.done j e (h₁.done j e he hd) hd
  processing j hj := h₂.processing j (h₁.processing j hj)
  no_new j hj := (h₂.no_new j hj).elim (h₁.no_new j) Or.inr
  kept j hj w hw := h₂.kept j (h₁.processing j hj) w (h₁.kept j hj w hw)
  fresh j w hw hw' := by
    by_cases hw₁ : w ∈ s'.waitingOf j
    · exact h₁.fresh j w hw₁ hw'
    · have hp := h₂.fresh j w hw hw₁
      by_contra hne
      exact h₁.not_pending hne hp

/-- A linked call stays linked. -/
theorem callLinked (h : Evolves act s s') {j idx : Nat} {c : CallSpec} (hc : s.CallLinked j idx c) :
    s'.CallLinked j idx c :=
  hc.mono h.ctx h.found (fun _ => h.statusOf_done) h.processing h.kept

/-- A call site that was waiting stands as it stood. -/
theorem waits (h : Evolves act s s') (hL : s.Linking) {j : Nat} {w : Nat × Nat}
    (hw : w ∈ s.waitingOf j) : s'.statusOf w.1 = .processing ∨
      ∃ (e : Registered) (f : Function) (c : CallSpec), s'.funcs[w.1]? = some e ∧
        e.status = .done ∧ e.func = some f ∧ f.calls[w.2]? = some c ∧ c.status = .inProgress j := by
  rcases hL.waits j w hw with hp | ⟨e, f, c, he, hd, hf, hc, hst⟩
  · exact Or.inl (h.processing _ hp)
  · exact Or.inr ⟨e, f, c, h.done _ e he hd, hd, hf, hc, hst⟩

end Evolves

/-! ## The steps of an analysis -/

section Steps

variable {id : Nat} {e : Registered}

theorem waitingOf_modify (g : Registered → Registered) (hg : ∀ e, (g e).waiting = e.waiting)
    (j : Nat) : (s.modify id g).waitingOf j = s.waitingOf j := by
  by_cases hj : id = j
  · subst hj
    cases he : s.funcs[id]? <;> simp [waitingOf, getElem?_modify, he, hg]
  · exact waitingOf_modify_ne s id g hj

/-- Starting the analysis of a pending function keeps the invariant. -/
theorem Linking.start (hL : s.Linking) (he : s.funcs[id]? = some e) (hp : e.status = .pending) :
    (s.modify id fun e => { e with status := .processing }).Linking ∧
      Evolves (some id) s (s.modify id fun e => { e with status := .processing }) := by
  set s₁ := s.modify id fun e => { e with status := .processing }
  have hid : s.statusOf id = .pending := by rw [statusOf_of_getElem? he, hp]
  have hstatus : ∀ j, id ≠ j → s₁.statusOf j = s.statusOf j := fun j hj => statusOf_modify_ne s id _ hj
  have hwait : ∀ j, s₁.waitingOf j = s.waitingOf j := waitingOf_modify _ (fun _ => rfl)
  have hev : Evolves (some id) s s₁ := by
    refine ⟨rfl, le_of_eq (size_modify _ _ _).symm, fun t j hj => ?_, fun j e' he' hd => ?_,
      fun j hj => ?_, fun j hj => ?_, fun j _ w hw => ?_, fun j w hw hw' => ?_⟩
    · rwa [findFunc_modify s id (fun e => { e with status := .processing }) (fun _ => rfl) t]
    · have hne : id ≠ j := by
        rintro rfl
        rw [he] at he'
        cases he'
        rw [hp] at hd
        cases hd
      rw [getElem?_modify, if_neg hne, he']
    · have hne : id ≠ j := by
        rintro rfl
        rw [hid] at hj
        cases hj
      rw [hstatus j hne, hj]
    · by_cases hj' : id = j
      · exact Or.inr (congrArg some hj')
      · exact Or.inl (by rwa [← hstatus j hj'])
    · rwa [hwait]
    · rw [hwait] at hw
      exact absurd hw hw'
  refine ⟨⟨fun j e' he' => ?_, fun j e' he' hn => ?_, fun j e' he' hd => ?_, fun j w hw => ?_⟩, hev⟩
  · rw [getElem?_modify] at he'
    split at he'
    · subst_vars
      rw [he] at he'
      cases he'
      exact hL.code _ e he
    · exact hL.code j e' he'
  · rw [getElem?_modify] at he'
    split at he'
    · subst_vars
      rw [he] at he'
      cases he'
      exact absurd rfl hn
    · exact hL.idle j e' he' hn
  · rw [getElem?_modify] at he'
    split at he'
    · subst_vars
      rw [he] at he'
      cases he'
      cases hd
    · obtain ⟨f, hf, hc⟩ := hL.done j e' he' hd
      exact ⟨f, hf, fun idx c h => hev.callLinked (hc idx c h)⟩
  · rw [hwait] at hw
    exact hev.waits hL hw

theorem statusOf_push (r : Registered) (hr : r.status = .pending) (j : Nat) :
    ({ s with funcs := s.funcs.push r } : Session).statusOf j = s.statusOf j := by
  by_cases hj : j = s.funcs.size
  · subst hj
    simp [statusOf, hr]
  · simp [statusOf, Array.getElem?_push, hj]

theorem waitingOf_push (r : Registered) (hr : r.waiting = []) (j : Nat) :
    ({ s with funcs := s.funcs.push r } : Session).waitingOf j = s.waitingOf j := by
  by_cases hj : j = s.funcs.size
  · subst hj
    simp [waitingOf, hr]
  · simp [waitingOf, Array.getElem?_push, hj]

/-- Registering a function at a code address keeps the invariant. -/
theorem Linking.register (hL : s.Linking) {n : String} {a : Address} {size : UInt64}
    (hcode : s.ctx.image.isCode a = true) :
    ({ s with funcs := s.funcs.push { name := n, addr := a, size := size } } : Session).Linking ∧
      Evolves none s { s with funcs := s.funcs.push { name := n, addr := a, size := size } } := by
  set r : Registered := { name := n, addr := a, size := size }
  set s₁ : Session := { s with funcs := s.funcs.push r }
  have hstatus : ∀ j, s₁.statusOf j = s.statusOf j := statusOf_push r rfl
  have hwait : ∀ j, s₁.waitingOf j = s.waitingOf j := waitingOf_push r rfl
  have hget : ∀ (j : Nat) (e : Registered), s.funcs[j]? = some e → s₁.funcs[j]? = some e := by
    intro j e he
    have hj : j < s.funcs.size := (Array.getElem?_eq_some_iff.mp he).1
    simp [s₁, Array.getElem?_push, Nat.ne_of_lt hj, he]
  have hnew : ∀ (j : Nat) (e : Registered), s₁.funcs[j]? = some e → s.funcs[j]? = some e ∨ e = r := by
    intro j e he
    simp only [s₁, Array.getElem?_push] at he
    split at he
    · exact Or.inr (Option.some.inj he).symm
    · exact Or.inl he
  have hev : Evolves none s s₁ := by
    refine ⟨rfl, by simp [s₁], fun t j hj => ?_, fun j e he _ => hget j e he,
      fun j hj => by rwa [hstatus], fun j hj => Or.inl (by rwa [← hstatus]),
      fun j _ w hw => by rwa [hwait], fun j w hw hw' => absurd (by rwa [← hwait]) hw'⟩
    simp [s₁, findFunc_push, hj]
  refine ⟨⟨fun j e he => ?_, fun j e he hn => ?_, fun j e he hd => ?_, fun j w hw => ?_⟩, hev⟩
  · rcases hnew j e he with he | rfl
    · exact hL.code j e he
    · exact hcode
  · rcases hnew j e he with he | rfl
    · exact hL.idle j e he hn
    · rfl
  · rcases hnew j e he with he | rfl
    · obtain ⟨f, hf, hc⟩ := hL.done j e he hd
      exact ⟨f, hf, fun idx c h => hev.callLinked (hc idx c h)⟩
    · cases hd
  · rw [hwait] at hw
    exact hev.waits hL hw

/-- The waiting list of `c` after the call at `idx` of `id` starts waiting on it. -/
def addWaiting (s : Session) (c id idx : Nat) : Session :=
  s.modify c fun e => { e with waiting := e.waiting ++ [(id, idx)] }

theorem waitingOf_addWaiting (s : Session) {c : Nat} (hc : c < s.funcs.size) (id idx j : Nat) :
    (s.addWaiting c id idx).waitingOf j = if c = j then s.waitingOf j ++ [(id, idx)] else s.waitingOf j := by
  by_cases hj : c = j
  · subst hj
    simp [addWaiting, waitingOf, getElem?_modify, Array.getElem?_eq_getElem hc]
  · simp [addWaiting, waitingOf_modify_ne _ _ _ hj, hj]

theorem findFunc_addWaiting (s : Session) (c id idx : Nat) (a : Address) :
    (s.addWaiting c id idx).findFunc a = s.findFunc a :=
  findFunc_modify s c (fun e => { e with waiting := e.waiting ++ [(id, idx)] }) (fun _ => rfl) a

theorem lt_of_statusOf_processing {c : Nat} (hc : s.statusOf c = .processing) : c < s.funcs.size := by
  by_contra h
  rw [statusOf_of_le (Nat.le_of_not_lt h)] at hc
  cases hc

theorem statusOf_addWaiting (s : Session) (c id idx j : Nat) :
    (s.addWaiting c id idx).statusOf j = s.statusOf j := by
  by_cases hj : c = j
  · subst hj
    cases he : s.funcs[c]? <;> simp [addWaiting, statusOf, getElem?_modify, he]
  · exact statusOf_modify_ne _ _ _ hj

theorem mem_waitingOf_addWaiting {c : Nat} (hc : c < s.funcs.size) {id idx j : Nat}
    {w : Nat × Nat} (hw : w ∈ s.waitingOf j) : w ∈ (s.addWaiting c id idx).waitingOf j := by
  rw [waitingOf_addWaiting s hc]
  split
  · exact List.mem_append_left _ hw
  · exact hw

theorem mem_waitingOf_of_addWaiting {c : Nat} (hc : c < s.funcs.size) {id idx j : Nat}
    {w : Nat × Nat} (hw : w ∈ (s.addWaiting c id idx).waitingOf j) :
    w ∈ s.waitingOf j ∨ w = (id, idx) := by
  rw [waitingOf_addWaiting s hc] at hw
  split at hw
  · rcases List.mem_append.mp hw with h | h
    · exact Or.inl h
    · exact Or.inr (List.mem_singleton.mp h)
  · exact Or.inl hw

@[simp] theorem size_addWaiting (s : Session) (c id idx : Nat) :
    (s.addWaiting c id idx).funcs.size = s.funcs.size :=
  size_modify _ _ _

theorem backlog_addWaiting (s : Session) (c id idx : Nat) :
    (s.addWaiting c id idx).backlog = s.backlog :=
  backlog_congr rfl (size_modify _ _ _) (findFunc_addWaiting s c id idx)
    fun j => by rw [statusOf_addWaiting]

theorem unlisted_addWaiting (s : Session) (c id idx : Nat) :
    (s.addWaiting c id idx).unlisted = s.unlisted :=
  unlisted_congr rfl (findFunc_addWaiting s c id idx)

/-- A linked call stays linked when a call site starts waiting. -/
theorem CallLinked.addWaiting {c : Nat} (hc : c < s.funcs.size) {id idx j idx' : Nat}
    {cs : CallSpec} (h : s.CallLinked j idx' cs) : (s.addWaiting c id idx).CallLinked j idx' cs :=
  h.mono rfl (fun t j hj => by rwa [findFunc_addWaiting])
    (fun j hj => by rwa [statusOf_addWaiting]) (fun j hj => by rwa [statusOf_addWaiting])
    (fun _ _ _ hw => mem_waitingOf_addWaiting hc hw)

/-- A call of a function under analysis waiting on another function under analysis keeps the
invariant. -/
theorem Linking.addWaiting (hL : s.Linking) {c idx : Nat} (hc : s.statusOf c = .processing)
    (hid : s.statusOf id = .processing) : (s.addWaiting c id idx).Linking := by
  set s₁ := s.addWaiting c id idx
  have hget : ∀ (j : Nat) (e : Registered), s.funcs[j]? = some e → e.status ≠ .processing →
      s₁.funcs[j]? = some e := by
    intro j e he hn
    have hne : c ≠ j := by
      rintro rfl
      rw [statusOf_of_getElem? he] at hc
      exact hn hc
    simp only [s₁, Session.addWaiting, getElem?_modify, if_neg hne, he]
  have hold : ∀ (j : Nat) (e' : Registered), s₁.funcs[j]? = some e' →
      ∃ e, s.funcs[j]? = some e ∧ e'.addr = e.addr ∧ e'.status = e.status ∧ e'.func = e.func ∧
        (e.status ≠ .processing → e'.waiting = e.waiting) := by
    intro j e' he'
    simp only [s₁, Session.addWaiting, getElem?_modify] at he'
    split at he'
    · subst_vars
      obtain ⟨e, he, rfl⟩ := Option.map_eq_some_iff.mp he'
      refine ⟨e, he, rfl, rfl, rfl, fun hn => absurd ?_ hn⟩
      rwa [statusOf_of_getElem? he] at hc
    · exact ⟨e', he', rfl, rfl, rfl, fun _ => rfl⟩
  refine ⟨fun j e' he' => ?_, fun j e' he' hn => ?_, fun j e' he' hd => ?_, fun j w hw => ?_⟩
  · obtain ⟨e, he, haddr, -⟩ := hold j e' he'
    rw [haddr]
    exact hL.code j e he
  · obtain ⟨e, he, -, hst, -, hw⟩ := hold j e' he'
    rw [hst] at hn
    rw [hw hn]
    exact hL.idle j e he hn
  · obtain ⟨e, he, -, hst, hfunc, -⟩ := hold j e' he'
    rw [hst] at hd
    obtain ⟨f, hf, hcs⟩ := hL.done j e he hd
    exact ⟨f, hfunc.trans hf, fun idx' cs h => (hcs idx' cs h).addWaiting (lt_of_statusOf_processing hc)⟩
  · rcases mem_waitingOf_of_addWaiting (lt_of_statusOf_processing hc) hw with hw | rfl
    · rcases hL.waits j w hw with hp | ⟨e, f, cs, he, hd, hf, hcs, hst⟩
      · exact Or.inl (by rwa [statusOf_addWaiting])
      · refine Or.inr ⟨e, f, cs, hget _ e he ?_, hd, hf, hcs, hst⟩
        rw [hd]
        decide
    · exact Or.inl (by rwa [statusOf_addWaiting])

/-- Recording a call site of the function `id` under way keeps the changes since `id` started
within those an analysis of `id` may make. -/
theorem Evolves.addWaiting {s₀ : Session} (h : Evolves (some id) s₀ s) (hid : s₀.statusOf id = .pending)
    {c idx : Nat} (hc : s.statusOf c = .processing) : Evolves (some id) s₀ (s.addWaiting c id idx) where
  ctx := h.ctx
  size := by simpa using h.size
  found t j hj := by
    rw [findFunc_addWaiting]
    exact h.found t j hj
  done j e he hd := by
    have hne : c ≠ j := by
      rintro rfl
      have := h.statusOf_done (by rw [statusOf_of_getElem? he, hd])
      rw [hc] at this
      cases this
    rw [Session.addWaiting, getElem?_modify, if_neg hne]
    exact h.done j e he hd
  processing j hj := by
    rw [statusOf_addWaiting]
    exact h.processing j hj
  no_new j hj := h.no_new j (by rwa [statusOf_addWaiting] at hj)
  kept j hj w hw := mem_waitingOf_addWaiting (lt_of_statusOf_processing hc) (h.kept j hj w hw)
  fresh j w hw hw' := by
    rcases mem_waitingOf_of_addWaiting (lt_of_statusOf_processing hc) hw with hw | rfl
    · exact h.fresh j w hw hw'
    · exact hid

/-! ## Completing a function -/

/-- The session once the function `id` completes with the analysis `g`: the analysis is stored,
the function is done, and the calls that waited on it are resolved to it. -/
def complete (s : Session) (id : Nat) (g : Function) : Session :=
  (s.modify id fun e => { e with func := some g, status := .done, waiting := [] }).resolveWaiting
    id (s.waitingOf id)

variable {s₀ : Session} {g : Function}

@[simp] theorem ctx_complete (s : Session) (id : Nat) (g : Function) :
    (s.complete id g).ctx = s.ctx := by
  simp [complete]

@[simp] theorem size_complete (s : Session) (id : Nat) (g : Function) :
    (s.complete id g).funcs.size = s.funcs.size := by
  simp [complete]

theorem findFunc_complete (s : Session) (id : Nat) (g : Function) (a : Address) :
    (s.complete id g).findFunc a = s.findFunc a := by
  rw [complete, findFunc_resolveWaiting, findFunc_modify s id
    (fun e => { e with func := some g, status := .done, waiting := [] }) (fun _ => rfl)]

theorem getElem?_complete_self (he : s.funcs[id]? = some e) (g : Function) :
    (s.complete id g).funcs[id]? = some { e with
      func := some (g.resolveSites (s.waitingOf id) id id), status := .done, waiting := [] } := by
  rw [complete, getElem?_resolveWaiting, getElem?_modify, if_pos rfl, he]
  rfl

theorem getElem?_complete_ne (s : Session) {j : Nat} (hne : id ≠ j) (g : Function) :
    (s.complete id g).funcs[j]? = s.funcs[j]?.map fun e =>
      { e with func := e.func.map (Function.resolveSites (s.waitingOf id) id j) } := by
  rw [complete, getElem?_resolveWaiting, getElem?_modify, if_neg hne]

theorem statusOf_complete (hid : id < s.funcs.size) (g : Function) (j : Nat) :
    (s.complete id g).statusOf j = if id = j then .done else s.statusOf j := by
  split
  · subst_vars
    rw [statusOf_of_getElem? (getElem?_complete_self (Array.getElem?_eq_getElem hid) g)]
  · rw [statusOf_eq, statusOf_eq, getElem?_complete_ne s ‹_› g]
    cases s.funcs[j]? <;> rfl

theorem waitingOf_complete (hid : id < s.funcs.size) (g : Function) (j : Nat) :
    (s.complete id g).waitingOf j = if id = j then [] else s.waitingOf j := by
  split
  · subst_vars
    rw [waitingOf_of_getElem? (getElem?_complete_self (Array.getElem?_eq_getElem hid) g)]
  · rw [waitingOf, waitingOf, getElem?_complete_ne s ‹_› g]
    cases s.funcs[j]? <;> rfl

theorem backlog_complete (hactive : s.statusOf id = .processing) (g : Function) :
    (s.complete id g).backlog = s.backlog := by
  have hid := lt_of_statusOf_processing hactive
  refine backlog_congr (ctx_complete s id g) (size_complete s id g) (findFunc_complete s id g)
    fun j => ?_
  rw [statusOf_complete hid]
  split
  · subst_vars
    rw [hactive]
    decide
  · rfl

theorem unlisted_complete (s : Session) (id : Nat) (g : Function) :
    (s.complete id g).unlisted = s.unlisted :=
  unlisted_congr (ctx_complete s id g) (findFunc_complete s id g)

/-- The calls waiting on a function under analysis started waiting after it started, from
functions pending then. -/
theorem pending_of_waiting (hev : Evolves (some id) s₀ s) (hidle : s₀.waitingOf id = [])
    {w : Nat × Nat} (hw : w ∈ s.waitingOf id) : s₀.statusOf w.1 = .pending :=
  hev.fresh id w hw (by rw [hidle]; exact List.not_mem_nil)

/-- A call waiting on a function under analysis belongs to that function itself, or to a
function done since, whose call there is in progress towards it. -/
theorem done_of_waiting (hL : s.Linking) (hev : Evolves (some id) s₀ s)
    (hidle : s₀.waitingOf id = []) {w : Nat × Nat} (hw : w ∈ s.waitingOf id) (hne : w.1 ≠ id) :
    ∃ (e : Registered) (f : Function) (c : CallSpec), s.funcs[w.1]? = some e ∧
      e.status = .done ∧ e.func = some f ∧ f.calls[w.2]? = some c ∧ c.status = .inProgress id := by
  rcases hL.waits id w hw with hp | hdone
  · -- a function under analysis now was one when `id` started, so it was not pending then
    rcases hev.no_new w.1 hp with hp₀ | heq
    · have := pending_of_waiting hev hidle hw
      rw [hp₀] at this
      cases this
    · exact absurd (Option.some.inj heq).symm hne
  · exact hdone

/-- Completing `id` keeps a call linked, resolving it if it waited on `id`. -/
theorem CallLinked.complete (hid : id < s.funcs.size) {j idx : Nat} {c : CallSpec}
    (hc : s.CallLinked j idx c) (hW : (j, idx) ∈ s.waitingOf id → c.status = .inProgress id) :
    (s.complete id g).CallLinked j idx
      (if (j, idx) ∈ s.waitingOf id then { c with status := .resolved id } else c) := by
  split
  · rename_i hjW
    have hst := hW hjW
    refine ⟨fun h => ?_, fun t ht => ?_⟩
    · rw [hc.1 h] at hst
      cases hst
    · rcases hc.2 t ht with ⟨-, hu⟩ | ⟨c', hf, ⟨hres, -⟩ | ⟨hprog, -, -⟩⟩
      · rw [hu] at hst
        cases hst
      · rw [hres] at hst
        cases hst
      · rw [hprog] at hst
        cases hst
        refine Or.inr ⟨id, by rwa [findFunc_complete], Or.inl ⟨rfl, ?_⟩⟩
        rw [statusOf_complete hid, if_pos rfl]
  · rename_i hjW
    refine ⟨hc.1, fun t ht => ?_⟩
    rcases hc.2 t ht with ⟨hcode, hu⟩ | ⟨c', hf, ⟨hres, hd⟩ | ⟨hprog, hp, hw⟩⟩
    · exact Or.inl ⟨by rwa [ctx_complete], hu⟩
    · refine Or.inr ⟨c', by rwa [findFunc_complete], Or.inl ⟨hres, ?_⟩⟩
      rw [statusOf_complete hid]
      split
      · rfl
      · exact hd
    · -- the call waits on another function under analysis, which keeps it waiting
      have hne : id ≠ c' := by
        rintro rfl
        exact hjW hw
      refine Or.inr ⟨c', by rwa [findFunc_complete], Or.inr ⟨hprog, ?_, ?_⟩⟩
      · rw [statusOf_complete hid, if_neg hne]
        exact hp
      · rw [waitingOf_complete hid, if_neg hne]
        exact hw

/-- Completing a function under analysis whose calls are linked, and whose calls waiting on a
function are in progress towards it, keeps the invariant. -/
theorem Linking.complete (hL : s.Linking) (hev : Evolves (some id) s₀ s)
    (hidle : s₀.waitingOf id = []) (hactive : s.statusOf id = .processing)
    (hlinked : ∀ idx c, g.calls[idx]? = some c → s.CallLinked id idx c)
    (hown : ∀ (j : Nat) (w : Nat × Nat), w ∈ s.waitingOf j → w.1 = id →
      ∃ c, g.calls[w.2]? = some c ∧ c.status = .inProgress j) :
    (s.complete id g).Linking := by
  have hid := lt_of_statusOf_processing hactive
  obtain ⟨e₀, he₀⟩ : ∃ e₀, s.funcs[id]? = some e₀ := ⟨_, Array.getElem?_eq_getElem hid⟩
  have hst₀ : e₀.status = .processing := by rwa [statusOf_of_getElem? he₀] at hactive
  -- the calls waiting on `id` are in progress towards it, in `g` as in the done functions
  have hself : ∀ idx c, g.calls[idx]? = some c → (id, idx) ∈ s.waitingOf id →
      c.status = .inProgress id := by
    intro idx c hc hw
    obtain ⟨c', hc', hst⟩ := hown id (id, idx) hw rfl
    rw [hc] at hc'
    cases hc'
    exact hst
  have hother : ∀ (j : Nat) (e : Registered) (f : Function) (idx : Nat) (c : CallSpec), id ≠ j →
      s.funcs[j]? = some e → e.func = some f → f.calls[idx]? = some c →
      (j, idx) ∈ s.waitingOf id → c.status = .inProgress id := by
    intro j e f idx c hne he hf hc hw
    obtain ⟨e', f', c', he', -, hf', hc', hst⟩ := done_of_waiting hL hev hidle hw (Ne.symm hne)
    rw [he] at he'
    cases he'
    rw [hf] at hf'
    cases hf'
    rw [hc] at hc'
    cases hc'
    exact hst
  refine ⟨fun j e' he' => ?_, fun j e' he' hn => ?_, fun j e' he' hd => ?_, fun j w hw => ?_⟩
  · rw [ctx_complete]
    by_cases hj : id = j
    · subst hj
      rw [getElem?_complete_self he₀] at he'
      cases he'
      exact hL.code _ e₀ he₀
    · rw [getElem?_complete_ne s hj] at he'
      obtain ⟨e, he, rfl⟩ := Option.map_eq_some_iff.mp he'
      exact hL.code j e he
  · by_cases hj : id = j
    · subst hj
      rw [getElem?_complete_self he₀] at he'
      cases he'
      rfl
    · rw [getElem?_complete_ne s hj] at he'
      obtain ⟨e, he, rfl⟩ := Option.map_eq_some_iff.mp he'
      exact hL.idle j e he hn
  · by_cases hj : id = j
    · subst hj
      rw [getElem?_complete_self he₀] at he'
      cases he'
      refine ⟨_, rfl, fun idx c hc => ?_⟩
      rw [Function.getElem?_resolveSites] at hc
      obtain ⟨c', hc', rfl⟩ := Option.map_eq_some_iff.mp hc
      exact (hlinked idx c' hc').complete hid (hself idx c' hc')
    · rw [getElem?_complete_ne s hj] at he'
      obtain ⟨e, he, rfl⟩ := Option.map_eq_some_iff.mp he'
      obtain ⟨f, hf, hcalls⟩ := hL.done j e he hd
      refine ⟨_, by rw [hf]; rfl, fun idx c hc => ?_⟩
      rw [Function.getElem?_resolveSites] at hc
      obtain ⟨c', hc', rfl⟩ := Option.map_eq_some_iff.mp hc
      exact (hcalls idx c' hc').complete hid (hother j e f idx c' hj he hf hc')
  · -- nothing waits on `id` any more, and the other lists are as they were
    have hj : id ≠ j := by
      rintro rfl
      rw [waitingOf_complete hid, if_pos rfl] at hw
      exact List.not_mem_nil hw
    rw [waitingOf_complete hid, if_neg hj] at hw
    rcases hL.waits j w hw with hp | ⟨e, f, c, he, hd, hf, hc, hst⟩
    · by_cases hw₁ : w.1 = id
      · -- the call of `id` itself, in progress towards `j` and not `id`, stays so
        obtain ⟨c, hc, hst⟩ := hown j w hw hw₁
        have hnot : (id, w.2) ∉ s.waitingOf id := fun hmem => by
          rw [hself w.2 c hc hmem] at hst
          injection hst with h
          exact hj h
        refine Or.inr ⟨_, _, c, by rw [hw₁]; exact getElem?_complete_self he₀ g, rfl, rfl, ?_, hst⟩
        rw [Function.getElem?_resolveSites_of_not_mem hnot, hc]
      · rw [statusOf_complete hid, if_neg (Ne.symm hw₁)]
        exact Or.inl hp
    · -- a done function's call in progress towards `j`, not `id`, stays so
      have hw₁ : id ≠ w.1 := by
        rintro heq
        rw [← heq, he₀] at he
        cases he
        rw [hst₀] at hd
        cases hd
      have hnot : (w.1, w.2) ∉ s.waitingOf id := fun hmem => by
        rw [hother w.1 e f w.2 c hw₁ he hf hc hmem] at hst
        injection hst with h
        exact hj h
      refine Or.inr ⟨{ e with func := e.func.map (Function.resolveSites (s.waitingOf id) id w.1) },
        f.resolveSites (s.waitingOf id) id w.1, c, by rw [getElem?_complete_ne s hw₁, he]; rfl, hd,
        by rw [hf]; rfl, ?_, hst⟩
      rw [Function.getElem?_resolveSites_of_not_mem hnot, hc]

/-- Completing a function under analysis ends the changes made since it started as an analysis
that leaves nothing under way may change a session. -/
theorem Evolves.complete (hev : Evolves (some id) s₀ s) (hstarted : s₀.statusOf id = .pending)
    (hidle : s₀.waitingOf id = []) (hactive : s.statusOf id = .processing) (g : Function) :
    Evolves none s₀ (s.complete id g) := by
  have hid := lt_of_statusOf_processing hactive
  have hne_of : ∀ j, s₀.statusOf j ≠ .pending → id ≠ j := by
    rintro j hj rfl
    exact hj hstarted
  refine ⟨by rw [ctx_complete]; exact hev.ctx, by rw [size_complete]; exact hev.size,
    fun t j hj => by rw [findFunc_complete]; exact hev.found t j hj, fun j e he hd => ?_,
    fun j hj => ?_, fun j hj => ?_, fun j hj w hw => ?_, fun j w hw hw' => ?_⟩
  · -- a function done before `id` started has no call waiting on `id`
    have hj := hne_of j (by rw [statusOf_of_getElem? he, hd]; decide)
    have hfree : ∀ w ∈ s.waitingOf id, w.1 ≠ j := by
      intro w hw heq
      have hp := pending_of_waiting hev hidle hw
      rw [heq, statusOf_of_getElem? he, hd] at hp
      cases hp
    rw [getElem?_complete_ne s hj, hev.done j e he hd]
    obtain ⟨_, _, _, _, _ | _, _⟩ := e <;> simp [Function.resolveSites_of_forall_ne hfree]
  · rw [statusOf_complete hid, if_neg (hne_of j (by rw [hj]; decide))]
    exact hev.processing j hj
  · rw [statusOf_complete hid] at hj
    split at hj
    · cases hj
    · rcases hev.no_new j hj with h | h
      · exact Or.inl h
      · exact absurd (Option.some.inj h) ‹_›
  · rw [waitingOf_complete hid, if_neg (hne_of j (by rw [hj]; decide))]
    exact hev.kept j hj w hw
  · rw [waitingOf_complete hid] at hw
    split at hw
    · exact absurd hw List.not_mem_nil
    · exact hev.fresh j w hw hw'

end Steps

end Session

end MicroSsa
