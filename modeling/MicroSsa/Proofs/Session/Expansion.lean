import MicroSsa.Proofs.Session.Linking
/-!
# Expanding the call graph

With calls followed, analysing a function analyses each function it calls before finishing,
registering a callee first when its target is new. This file carries the invariant of
`MicroSsa.Proofs.Session.Linking` through that recursion.

The loop over the calls of the function `id` keeps `Session.LinkLoop`: the session's calls stay
linked, the calls of `id` linked so far are linked in the session, and every call site of `id`
waiting on another function is one of those, in progress towards it. Each outcome of linking
one call (no target, a target outside code, a callee done, a callee under analysis) moves the
loop one call on, and so does the whole loop (`LinkLoop.step`). A nested analysis only needs to
be known to leave the calls linked, with nothing more left to analyse; the analysis of `id`
then ends with `id` done and every call it waited for resolved (`analyze_analyzed`, by
induction on the fuel, which the backlog of what is left to analyse bounds).

Between top-level analyses a session is `Session.Settled`: no analysis is under way, so every
call of a function that is done is unknown or resolved to the function at its target, which is
done too and holds its analysis (`Settled.calls`).
-/

namespace MicroSsa

/-- A property of the first `k` steps of a fold over the first `n` numbers, kept by each step,
holds at its end. -/
theorem foldlM_range_invariant {ε β : Type} {step : β → Nat → Except ε β} (P : Nat → β → Prop)
    {n : Nat} {b b' : β} (h : (List.range n).foldlM step b = .ok b') (hb : P 0 b)
    (hstep : ∀ k < n, ∀ x y, P k x → step x k = .ok y → P (k + 1) y) : P n b' := by
  induction n generalizing b' with
  | zero =>
    cases h
    exact hb
  | succ n ih =>
    rw [List.range_succ, List.foldlM_append] at h
    obtain ⟨x, hx, h⟩ := Except.bind_eq_ok h
    obtain ⟨y, hy, h⟩ := Except.bind_eq_ok h
    cases h
    exact hstep n (Nat.lt_succ_self n) x _ (ih hx fun k hk => hstep k (Nat.lt_succ_of_lt hk)) hy

namespace Function

/-- Changing the status of a call that has a target keeps where its target comes from. -/
theorem CallSites.setCallStatus {T : List Address} {f : Function} (h : f.CallSites T) {k : Nat}
    {c : CallSpec} (hc : f.calls[k]? = some c) (ht : c.target ≠ none) (st : CallStatus) :
    (f.setCallStatus k st).CallSites T := by
  refine ⟨h.annotated, fun c' hc' => ?_⟩
  obtain ⟨i, hi⟩ := List.getElem?_of_mem hc'
  rw [Array.getElem?_toList, getElem?_setCallStatus] at hi
  split at hi
  · subst_vars
    rw [hc] at hi
    cases hi
    exact ⟨fun h' => absurd h' ht, (h.calls c (Array.mem_toList_iff.mpr (Array.mem_of_getElem? hc))).2⟩
  · exact h.calls c' (Array.mem_toList_iff.mpr (Array.mem_of_getElem? hi))

end Function

namespace Session

variable {ctx : Context} {s₀ s s' : Session} {id n k : Nat} {f : Function}

/-- What an analysis of `id` achieves from a session whose calls are linked: the calls stay
linked, the session evolves with no analysis left under way, no more is left to analyse, and
`id`, if it was a pending function, is done. -/
structure Analyzed (s : Session) (id : Nat) (s' : Session) : Prop where
  linking : s'.Linking
  evolves : Evolves none s s'
  backlog_le : s'.backlog ≤ s.backlog
  total_le : s'.funcs.size + s'.unlisted.card ≤ s.funcs.size + s.unlisted.card
  done : s.statusOf id = .pending → id < s.funcs.size → s'.statusOf id = .done

/-- An analysis that changes nothing, of a function that is not pending. -/
theorem Analyzed.refl (hL : s.Linking) (hid : id < s.funcs.size → s.statusOf id ≠ .pending) :
    Analyzed s id s :=
  ⟨hL, Evolves.refl none s, le_refl _, le_refl _, fun hp hlt => absurd hp (hid hlt)⟩

/-- The loop that links the calls of the function `id` of `F` calls, after its first `k`: `s₀`
is the session before `id` started and `f` the function as linked so far. -/
structure LinkLoop (s₀ : Session) (id F k : Nat) (s : Session) (f : Function) : Prop where
  linking : s.Linking
  evolves : Evolves (some id) s₀ s
  active : s.statusOf id = .processing
  backlog_lt : s.backlog < s₀.backlog
  total_le : s.funcs.size + s.unlisted.card ≤ s₀.funcs.size + s₀.unlisted.card
  sites : f.CallSites s₀.ctx.decoder.firstOperands
  calls_size : f.calls.size = F
  linked : ∀ idx c, idx < k → f.calls[idx]? = some c → s.CallLinked id idx c
  /-- A waiting call site of `id` is one linked so far, in progress towards the function it
  waits on. -/
  own : ∀ (j : Nat) (w : Nat × Nat), w ∈ s.waitingOf j → w.1 = id →
    w.2 < k ∧ ∃ c, f.calls[w.2]? = some c ∧ c.status = .inProgress j

/-- Registering the callee of a call first does not change how the call is linked: as to the
function now found at its target. -/
theorem linkCall_register {run : Session → Nat → Except Fault Session} {id k : Nat} {f : Function}
    {t : Address} {j : Nat} (ht : f.calls[k]?.bind (·.target) = some t) (hnone : s.findFunc t = none)
    (hadd : s.addFunction ("func_" ++ Word.hexDigits t.offset.toNat) t 0 = some (s', j))
    (hfound : s'.findFunc t = some j) :
    linkCall run id (s, f) k = linkCall run id (s', f) k := by
  rw [linkCall, linkCall]
  simp only [ht, hnone, hadd, hfound]

namespace LinkLoop

variable {F : Nat}

/-- The loop's invariant survives a change of session that leaves no analysis under way and no
more to analyse. -/
theorem evolve (h : LinkLoop s₀ id F k s f) (hL : s'.Linking) (hev : Evolves none s s')
    (hb : s'.backlog ≤ s.backlog)
    (ht : s'.funcs.size + s'.unlisted.card ≤ s.funcs.size + s.unlisted.card) :
    LinkLoop s₀ id F k s' f where
  linking := hL
  evolves := h.evolves.trans (hev.weaken _)
  active := hev.processing id h.active
  backlog_lt := lt_of_le_of_lt hb h.backlog_lt
  total_le := ht.trans h.total_le
  sites := h.sites
  calls_size := h.calls_size
  linked idx c hk hc := hev.callLinked (h.linked idx c hk hc)
  own j w hw hid := by
    -- a call site that starts waiting belongs to a function that was pending, so not to `id`
    by_cases hw' : w ∈ s.waitingOf j
    · exact h.own j w hw' hid
    · have hp := hev.fresh j w hw hw'
      rw [hid, h.active] at hp
      cases hp

/-- Registering the function at the target of a call of `id` keeps the loop's invariant. -/
theorem register (h : LinkLoop s₀ id F k s f) {t : Address} (htT : t ∈ s₀.ctx.decoder.firstOperands)
    {name : String} {j : Nat} (hnone : s.findFunc t = none) (hadd : s.addFunction name t 0 = some (s', j)) :
    LinkLoop s₀ id F k s' f ∧ s'.findFunc t = some j := by
  rcases addFunction_eq hadd with ⟨hfound, -⟩ | ⟨-, hcode, rfl, nm, rfl⟩
  · rw [hnone] at hfound
    cases hfound
  obtain ⟨hL, hev⟩ : ({ s with funcs := s.funcs.push { name := nm, addr := t, size := 0 } } :
      Session).Linking ∧ Evolves none s { s with funcs := s.funcs.push { name := nm, addr := t, size := 0 } } :=
    h.linking.register hcode
  have hmem : t ∈ s.ctx.decoder.firstOperands := by rwa [h.evolves.ctx]
  obtain ⟨hb, ht⟩ := @backlog_push s { name := nm, addr := t, size := 0 } rfl hnone hmem
  exact ⟨h.evolve hL hev hb.le ht.le, by simp [findFunc_push, hnone]⟩

/-! ### The outcomes of linking one call -/

variable {c : CallSpec} {t : Address} {j : Nat}

/-- A call without a target is left as it is: unknown. -/
theorem skip (h : LinkLoop s₀ id F k s f) (hnone : f.calls[k]?.bind (·.target) = none) :
    LinkLoop s₀ id F (k + 1) s f :=
  { h with
    linked := fun idx c hk hc => by
      rcases Nat.lt_succ_iff_lt_or_eq.mp hk with hk | rfl
      · exact h.linked idx c hk hc
      · have ht : c.target = none := by simpa [hc] using hnone
        refine ⟨fun _ => (h.sites.calls c (Array.mem_toList_iff.mpr (Array.mem_of_getElem? hc))).1 ht,
          fun t' ht' => ?_⟩
        rw [ht] at ht'
        cases ht'
    own := fun j w hw hid => (h.own j w hw hid).imp_left Nat.lt_succ_of_lt }

/-- Giving call `k` a status that links it moves the loop past `k`. -/
theorem setCall (h : LinkLoop s₀ id F k s f) (hc : f.calls[k]? = some c) (ht : c.target ≠ none)
    {st : CallStatus} (hk : s.CallLinked id k { c with status := st }) :
    LinkLoop s₀ id F (k + 1) s (f.setCallStatus k st) :=
  { h with
    sites := h.sites.setCallStatus hc ht st
    calls_size := by rw [Function.size_setCallStatus, h.calls_size]
    linked := fun idx c' hidx hc' => by
      rw [Function.getElem?_setCallStatus] at hc'
      split at hc'
      · subst_vars
        rw [hc] at hc'
        cases hc'
        exact hk
      · exact h.linked idx c' (by omega) hc'
    own := fun j w hw hid => by
      obtain ⟨hlt, c', hc', hst⟩ := h.own j w hw hid
      refine ⟨Nat.lt_succ_of_lt hlt, c', ?_, hst⟩
      rw [Function.getElem?_setCallStatus, if_neg (by omega), hc'] }

/-- A call whose target is outside code is unknown. -/
theorem unknown (h : LinkLoop s₀ id F k s f) (hc : f.calls[k]? = some c) (hct : c.target = some t)
    (hcode : s.ctx.image.isCode t = false) :
    LinkLoop s₀ id F (k + 1) s (f.setCallStatus k .unknown) :=
  h.setCall hc (by simp [hct]) ⟨fun h' => by simp [hct] at h', fun t' ht' => by
    obtain rfl : t = t' := by simpa [hct] using ht'
    exact Or.inl ⟨hcode, rfl⟩⟩

/-- A call whose callee is done is resolved to it. -/
theorem resolved (h : LinkLoop s₀ id F k s f) (hc : f.calls[k]? = some c) (hct : c.target = some t)
    (hfound : s.findFunc t = some j) (hdone : s.statusOf j = .done) :
    LinkLoop s₀ id F (k + 1) s (f.setCallStatus k (.resolved j)) :=
  h.setCall hc (by simp [hct]) ⟨fun h' => by simp [hct] at h', fun t' ht' => by
    obtain rfl : t = t' := by simpa [hct] using ht'
    exact Or.inr ⟨j, hfound, Or.inl ⟨rfl, hdone⟩⟩⟩

/-- A call whose callee is still under analysis is in progress towards it, and waits on it. -/
theorem wait (h : LinkLoop s₀ id F k s f) (hs₀ : s₀.statusOf id = .pending)
    (hc : f.calls[k]? = some c) (hct : c.target = some t) (hfound : s.findFunc t = some j)
    (hproc : s.statusOf j = .processing) (fl : FuncFlags) :
    LinkLoop s₀ id F (k + 1) (s.addWaiting j id k)
      { f.setCallStatus k (.inProgress j) with flags := fl } := by
  have hj := lt_of_statusOf_processing hproc
  have hk : (s.addWaiting j id k).CallLinked id k { c with status := .inProgress j } :=
    ⟨fun h' => by simp [hct] at h', fun t' ht' => by
      obtain rfl : t = t' := by simpa [hct] using ht'
      refine Or.inr ⟨j, by rwa [findFunc_addWaiting], Or.inr ⟨rfl, by rwa [statusOf_addWaiting], ?_⟩⟩
      rw [waitingOf_addWaiting s hj, if_pos rfl]
      exact List.mem_append_right _ (List.mem_singleton_self _)⟩
  have hold : ∀ (j' : Nat) (w : Nat × Nat), w ∈ s.waitingOf j' → w.1 = id → w.2 < k + 1 ∧
      ∃ c', (f.setCallStatus k (.inProgress j)).calls[w.2]? = some c' ∧ c'.status = .inProgress j' := by
    intro j' w hw hid
    obtain ⟨hlt, c', hc', hst⟩ := h.own j' w hw hid
    refine ⟨Nat.lt_succ_of_lt hlt, c', ?_, hst⟩
    rw [Function.getElem?_setCallStatus, if_neg (by omega), hc']
  refine ⟨h.linking.addWaiting hproc h.active, h.evolves.addWaiting hs₀ hproc,
    by rw [statusOf_addWaiting]; exact h.active, by rw [backlog_addWaiting]; exact h.backlog_lt,
    by rw [size_addWaiting, unlisted_addWaiting]; exact h.total_le,
    (h.sites.setCallStatus hc (by simp [hct]) _).of_eq rfl rfl,
    by simp only [Function.size_setCallStatus]; exact h.calls_size, fun idx c' hidx hc' => ?_,
    fun j' w hw hid => ?_⟩
  · change (f.setCallStatus k (.inProgress j)).calls[idx]? = some c' at hc'
    rw [Function.getElem?_setCallStatus] at hc'
    split at hc'
    case isTrue hki =>
      subst hki
      rw [hc] at hc'
      cases hc'
      exact hk
    case isFalse hki => exact (h.linked idx c' (by omega) hc').addWaiting hj
  · -- the one call site that starts waiting is call `k`, on `j`
    rw [waitingOf_addWaiting s hj] at hw
    split at hw
    case isTrue hjj =>
      subst hjj
      rcases List.mem_append.mp hw with hw | hw
      · exact hold j w hw hid
      · obtain rfl := List.mem_singleton.mp hw
        exact ⟨Nat.lt_succ_self k, { c with status := .inProgress j },
          by simp [Function.getElem?_setCallStatus, hc], rfl⟩
    case isFalse hjj => exact hold j' w hw hid

section Step

variable (hrun : ∀ (s s' : Session) (c : Nat), s.ctx = s₀.ctx → s.Linking → s.backlog < n →
  analyze n s c = .ok s' → Analyzed s c s')
include hrun

/-- Linking call `k` to the function `j` registered at its target moves the loop one call on:
the nested analysis of `j` leaves it done, or under way when it is an ancestor. -/
theorem found (hn : s₀.backlog ≤ n) (hs₀ : s₀.statusOf id = .pending) (h : LinkLoop s₀ id F k s f)
    (hc : f.calls[k]? = some c) (hct : c.target = some t) (hfound : s.findFunc t = some j)
    {f' : Function} (hlink : linkCall (analyze n) id (s, f) k = .ok (s', f')) :
    LinkLoop s₀ id F (k + 1) s' f' := by
  rw [linkCall] at hlink
  simp only [hc, Option.bind_some, hct, hfound] at hlink
  obtain ⟨s₂, hs₂, hlink⟩ := Except.bind_eq_ok hlink
  have ha := hrun s s₂ j h.evolves.ctx h.linking (lt_of_lt_of_le h.backlog_lt hn) hs₂
  have h₂ := h.evolve ha.linking ha.evolves ha.backlog_le ha.total_le
  have hfound₂ := ha.evolves.found t j hfound
  split at hlink
  case h_1 hdone =>
    cases hlink
    exact h₂.resolved hc hct hfound₂ hdone
  case h_2 hproc =>
    cases hlink
    exact h₂.wait hs₀ hc hct hfound₂ hproc _
  case h_3 hpend =>
    -- the callee is registered, so its analysis leaves it done or under way
    by_cases hp : s.statusOf j = .pending
    · rw [ha.done hp (lt_of_findFunc hfound)] at hpend
      cases hpend
    · exact absurd hpend (ha.evolves.not_pending hp)

/-- Linking call `k` moves the loop one call on. -/
theorem step (hn : s₀.backlog ≤ n) (hs₀ : s₀.statusOf id = .pending) (h : LinkLoop s₀ id F k s f)
    {f' : Function} (hlink : linkCall (analyze n) id (s, f) k = .ok (s', f')) :
    LinkLoop s₀ id F (k + 1) s' f' := by
  cases ht : f.calls[k]?.bind (·.target) with
  | none =>
    rw [linkCall, ht] at hlink
    cases hlink
    exact h.skip ht
  | some t =>
    obtain ⟨c, hc, hct⟩ := Option.bind_eq_some_iff.mp ht
    have htT : t ∈ s₀.ctx.decoder.firstOperands :=
      (h.sites.calls c (Array.mem_toList_iff.mpr (Array.mem_of_getElem? hc))).2 t hct
    cases hf : s.findFunc t with
    | some j => exact h.found hrun hn hs₀ hc hct hf hlink
    | none =>
      -- a new target is registered if it is code, and the call then links to it
      cases hadd : s.addFunction ("func_" ++ Word.hexDigits t.offset.toNat) t 0 with
      | none =>
        rw [linkCall] at hlink
        simp only [ht, hf, hadd] at hlink
        cases hlink
        exact h.unknown hc hct (isCode_of_addFunction_none hadd)
      | some p =>
        obtain ⟨h₁, hfound⟩ := h.register htT hf hadd
        rw [linkCall_register ht hf hadd hfound] at hlink
        exact h₁.found hrun hn hs₀ hc hct hfound hlink

end Step

end LinkLoop

/-- Flow following from a fresh function records only calls whose targets are first operands. -/
theorem callSites_discover {ctx : Context} {name : String} {a : Address} {size : UInt64}
    {flags : FuncFlags} {g : Function}
    (h : ({ Function.init name a ctx.arch.spaces ctx.limits.maxInstructions with size, flags } :
      Function).discoverFlow ctx = .ok g) : g.CallSites ctx.decoder.firstOperands :=
  Function.CallSites.discoverFlow ⟨Store.annotatedIn_empty _ _ _, by simp [Function.init]⟩ h

/-- The loop starts with `id` under analysis and no call linked. -/
theorem LinkLoop.start (hL : s.Linking) {e : Registered} (he : s.funcs[id]? = some e)
    (hp : e.status = .pending) {g : Function} (hg : g.CallSites s.ctx.decoder.firstOperands) :
    LinkLoop s id g.calls.size 0 (s.modify id fun e => { e with status := .processing }) g := by
  obtain ⟨hL₁, hev₁⟩ := hL.start he hp
  have hb := backlog_start he hp (fun e => { e with status := .processing }) (fun _ => rfl) rfl
  refine ⟨hL₁, hev₁, by simp [statusOf, getElem?_modify, he], by omega,
    by rw [size_modify, unlisted_modify s id (fun e => { e with status := .processing }) fun _ => rfl],
    hg, rfl, fun _ _ hk => absurd hk (Nat.not_lt_zero _),
    fun j w hw hid => ?_⟩
  -- no call site of `id` waits anywhere: `id` was pending
  rw [waitingOf_modify (fun e => { e with status := .processing }) (fun _ => rfl)] at hw
  rcases hL.waits j w hw with hproc | ⟨e', -, -, he', hdone, -⟩
  · rw [hid, statusOf_of_getElem? he, hp] at hproc
    cases hproc
  · rw [hid, he] at he'
    cases he'
    rw [hp] at hdone
    cases hdone

/-- **Analysing a function** from a session whose calls are linked, on more fuel than is left to
analyse, keeps the calls linked, leaves nothing under way, and leaves the function done. -/
theorem analyze_analyzed (hfollow : ctx.config.followCalls = true) :
    ∀ (n : Nat) (s s' : Session) (id : Nat), s.ctx = ctx → s.Linking → s.backlog < n →
      analyze n s id = .ok s' → Analyzed s id s'
  | 0, _, _, _, _, _, hb, _ => absurd hb (Nat.not_lt_zero _)
  | n + 1, s, s', id, hctx, hL, hb, h => by
    rw [analyze] at h
    split at h
    case h_1 hnone =>
      cases h
      exact Analyzed.refl hL fun hlt => absurd hnone (by simp [hlt])
    case h_2 e he =>
      split at h
      case isTrue hne =>
        cases h
        exact Analyzed.refl hL fun _ => by simpa [statusOf_of_getElem? he] using hne
      case isFalse hp =>
        have hp : e.status = .pending := by simpa using hp
        have hs : s.statusOf id = .pending := by rw [statusOf_of_getElem? he, hp]
        obtain ⟨g, hg, h⟩ := Except.bind_eq_ok h
        rw [if_pos (by rw [ctx_modify, hctx]; exact hfollow)] at h
        obtain ⟨⟨s₂, f₂⟩, hloop, h⟩ := Except.bind_eq_ok h
        obtain ⟨f₃, hf₃, h⟩ := Except.bind_eq_ok h
        cases h
        -- the loop over the calls, each nested analysis running on one less fuel
        have hend : LinkLoop s id g.calls.size g.calls.size s₂ f₂ :=
          foldlM_range_invariant (fun k p => LinkLoop s id g.calls.size k p.1 p.2) hloop
            (LinkLoop.start hL he hp (callSites_discover hg)) fun k _ x y hx hy => by
              obtain ⟨x₁, x₂⟩ := x
              obtain ⟨y₁, y₂⟩ := y
              exact hx.step (fun s₁ s₂ c hc₁ hL₁ hb₁ h₁ =>
                analyze_analyzed hfollow n s₁ s₂ c (hc₁.trans hctx) hL₁ hb₁ h₁) (by omega) hs hy
        have hidle : s.waitingOf id = [] := by
          rw [waitingOf_of_getElem? he]
          exact hL.idle id e he (by rw [hp]; decide)
        have hlinked : ∀ idx c, f₃.calls[idx]? = some c → s₂.CallLinked id idx c := by
          intro idx c hc
          rw [Function.calls_finishAnalysis hf₃] at hc
          have hlt := (Array.getElem?_eq_some_iff.mp hc).1
          rw [hend.calls_size] at hlt
          exact hend.linked idx c hlt hc
        have hown : ∀ (j : Nat) (w : Nat × Nat), w ∈ s₂.waitingOf j → w.1 = id →
            ∃ c, f₃.calls[w.2]? = some c ∧ c.status = .inProgress j := by
          intro j w hw hid
          rw [Function.calls_finishAnalysis hf₃]
          exact (hend.own j w hw hid).2
        show Analyzed s id (s₂.complete id f₃)
        refine ⟨hend.linking.complete hend.evolves hidle hend.active hlinked hown,
          hend.evolves.complete hs hidle hend.active f₃, ?_, ?_, fun _ _ => ?_⟩
        · rw [backlog_complete hend.active]
          exact hend.backlog_lt.le
        · rw [size_complete, unlisted_complete]
          exact hend.total_le
        · rw [statusOf_complete (lt_of_statusOf_processing hend.active), if_pos rfl]

/-! ## Between top-level analyses -/

namespace Settled

/-- A settled session links every call of a function that is done: a call with no target, or
with a target outside code, is unknown; any other is resolved to the function registered at its
target, which is done. -/
theorem calls (hS : s.Settled) {j : Nat} {e : Registered} {g : Function} {c : CallSpec}
    (he : s.funcs[j]? = some e) (hd : e.status = .done) (hg : e.func = some g)
    (hc : c ∈ g.calls.toList) :
    (c.target = none → c.status = .unknown) ∧ ∀ t, c.target = some t →
      (s.ctx.image.isCode t = true →
        ∃ id, s.findFunc t = some id ∧ c.status = .resolved id ∧ s.statusOf id = .done) ∧
      (s.ctx.image.isCode t = false → c.status = .unknown) := by
  obtain ⟨g', hg', hlinked⟩ := hS.done j e he hd
  rw [hg] at hg'
  cases hg'
  obtain ⟨idx, hidx⟩ := List.getElem?_of_mem hc
  have hl := hlinked idx c (by rwa [Array.getElem?_toList] at hidx)
  refine ⟨hl.1, fun t ht => ⟨fun hcode => ?_, fun hcode => ?_⟩⟩
  · rcases hl.2 t ht with ⟨hnc, -⟩ | ⟨id, hid, ⟨hres, hdone⟩ | ⟨-, hproc, -⟩⟩
    · rw [hcode] at hnc
      cases hnc
    · exact ⟨id, hid, hres, hdone⟩
    · exact absurd hproc (hS.resting id)
  · rcases hl.2 t ht with ⟨-, hu⟩ | ⟨id, hid, -⟩
    · exact hu
    · -- a function registered at the target makes it code
      obtain ⟨e', he', haddr⟩ := addr_of_findFunc hid
      have hc' := hS.code id e' he'
      rw [haddr, hcode] at hc'
      cases hc'

/-- A top-level analysis keeps a session settled, leaves the function asked for done, and adds
to what was registered no more than first operands of the listing. -/
theorem analyze (hS : s.Settled) (hfollow : s.ctx.config.followCalls = true)
    (h : s.analyze s.fuel id = .ok s') :
    s'.Settled ∧ Evolves none s s' ∧ (id < s.funcs.size → s'.statusOf id = .done) ∧
      s'.funcs.size + s'.unlisted.card ≤ s.funcs.size + s.unlisted.card := by
  have ha := analyze_analyzed hfollow s.fuel s s' id rfl hS.toLinking (backlog_lt_fuel s) h
  refine ⟨⟨ha.linking, fun j hj => ?_⟩, ha.evolves, fun hlt => ?_, ha.total_le⟩
  · rcases ha.evolves.no_new j hj with h' | h'
    · exact hS.resting j h'
    · cases h'
  · cases hst : s.statusOf id with
    | pending => exact ha.done hst hlt
    | processing => exact absurd hst (hS.resting id)
    | done => exact ha.evolves.statusOf_done hst

/-- Analysing every function from `i` on, with the ones before `i` done and more fuel than
functions there can be, leaves every function done. -/
theorem analyzeFrom :
    ∀ (m : Nat) (s s' : Session) (i : Nat), s.ctx.config.followCalls = true → s.Settled →
      (∀ j < i, j < s.funcs.size → s.statusOf j = .done) → s.funcs.size + s.unlisted.card < m + i →
      Session.analyzeFrom m s i = .ok s' →
      s'.Settled ∧ Evolves none s s' ∧ ∀ j < s'.funcs.size, s'.statusOf j = .done
  | 0, s, s', i, _, hS, hdone, hfuel, h => by
    cases h
    exact ⟨hS, Evolves.refl none s, fun j hj => hdone j (by omega) hj⟩
  | m + 1, s, s', i, hf, hS, hdone, hfuel, h => by
    rw [Session.analyzeFrom] at h
    split at h
    case isTrue hi =>
      obtain ⟨s₁, h₁, h⟩ := Except.bind_eq_ok h
      obtain ⟨hS₁, hev₁, hid, htot⟩ := hS.analyze hf h₁
      have hdone₁ : ∀ j < i + 1, j < s₁.funcs.size → s₁.statusOf j = .done := by
        intro j hj _
        rcases Nat.lt_succ_iff_lt_or_eq.mp hj with hj | rfl
        · exact hev₁.statusOf_done (hdone j hj (by omega))
        · exact hid hi
      obtain ⟨hS', hev', hall⟩ := analyzeFrom m s₁ s' (i + 1) (by rw [hev₁.ctx]; exact hf) hS₁
        hdone₁ (by omega) h
      exact ⟨hS', hev₁.trans hev', hall⟩
    case isFalse hi =>
      cases h
      exact ⟨hS, Evolves.refl none s, fun j hj => hdone j (by omega) hj⟩

end Settled

end Session

end MicroSsa
