import MicroSsa.Proofs.Session.Linking
/-!
# The function registry

A session registers a function once per address: `addFunction` returns the function already
registered at an address, and otherwise appends a new one, under the requested name when no
function has it yet and under that name followed by `_` and the address's hex digits when one
does (`Session.nameFor`). Symbol discovery and the registration of call targets (as
`func_<hex>`) both go through it.

The sessions that registrations build from an empty registry, with changes between them that
keep names and addresses (`Session.Registry`), find every function at its address, so no two
functions share one. Names can repeat: the appended form may itself be a name already taken, and
the later function then takes the name over. That is the only way a name repeats, and the main
statement, `Registry.lookups`, says so: every function's name is found, at the function itself
or at a later function that got the name by the rename. `symbols_rename_clash` is three symbols
for which it happens.
-/

namespace MicroSsa

/-- A name of the renamed form: some name, `_`, and the hex digits of the function's address. -/
def Registered.Renamed (e : Registered) : Prop :=
  ∃ n, e.name = n ++ "_" ++ Word.hexDigits e.addr.offset.toNat

namespace Session

variable {s s' : Session}

/-! ## Looking functions up -/

/-- A registration at a new address is found by name at the new index; other names are found
where they were. -/
theorem findByName?_push (e : Registered) (n : String) :
    ({ s with funcs := s.funcs.push e } : Session).findByName? n =
      if e.name = n then some s.funcs.size else s.findByName? n := by
  by_cases hn : e.name = n <;>
    simp [findByName?, List.zipIdx_append, List.filter_append, hn]

/-- With no function found under a name, no function has it. -/
theorem name_ne_of_findByName?_none {n : String} (h : s.findByName? n = none) {j : Nat}
    {e : Registered} (he : s.funcs[j]? = some e) : e.name ≠ n := by
  intro hname
  have hmem : (e, j) ∈ s.funcs.toList.zipIdx := by
    rw [List.mem_zipIdx_iff_getElem?]
    simpa using he
  simp only [findByName?, Option.map_eq_none_iff, List.getLast?_eq_none_iff,
    List.filter_eq_nil_iff] at h
  exact h _ hmem (by simpa using hname)

/-- The name lookup reads the functions' names only. -/
theorem findByName?_eq_names (s : Session) (n : String) :
    s.findByName? n =
      (((s.funcs.toList.map (·.name)).zipIdx.filter (·.1 == n)).getLast?.map (·.2)) := by
  simp only [findByName?, List.zipIdx_map, List.filter_map, List.getLast?_map, Option.map_map]
  rfl

/-- The name given to a function at a new address. -/
theorem addFunction_new {n : String} {a : Address} {size : UInt64}
    (hfind : s.findFunc a = none) (hcode : s.ctx.image.isCode a = true) :
    s.addFunction n a size =
      some ({ s with funcs := s.funcs.push { name := s.nameFor n a, addr := a, size } },
        s.funcs.size) := by
  simp [addFunction, hfind, hcode]

/-- A requested name that is already taken is given in the renamed form. -/
theorem renamed_nameFor {n : String} {a : Address} {size : UInt64} {j : Nat} {e : Registered}
    (he : s.funcs[j]? = some e) (hname : s.nameFor n a = e.name) :
    ({ name := s.nameFor n a, addr := a, size } : Registered).Renamed := by
  unfold nameFor at hname ⊢
  split
  · exact ⟨n, rfl⟩
  · rename_i htaken
    rw [if_neg htaken] at hname
    exact absurd hname.symm
      (name_ne_of_findByName?_none (Option.not_isSome_iff_eq_none.mp htaken) he)

/-! ## The invariant -/

/-- Every function is found at its address, and its name is found at the function itself or at
a later function that got the name by the rename. -/
structure Lookups (s : Session) : Prop where
  byAddr : ∀ (id : Nat) (e : Registered), s.funcs[id]? = some e → s.findFunc e.addr = some id
  byName : ∀ (id : Nat) (e : Registered), s.funcs[id]? = some e →
    ∃ (j : Nat) (e' : Registered), s.findByName? e.name = some j ∧ s.funcs[j]? = some e' ∧
      e'.name = e.name ∧ (j = id ∨ id < j ∧ e'.Renamed)

theorem lookups_empty (ctx : Context) : ({ ctx } : Session).Lookups :=
  ⟨fun _ _ he => by simp at he, fun _ _ he => by simp at he⟩

/-- Two sessions whose functions have the same names and addresses, index by index. -/
def SameKeys (s s' : Session) : Prop :=
  ∀ j : Nat, s'.funcs[j]?.map (fun e : Registered => (e.name, e.addr)) =
    s.funcs[j]?.map (fun e : Registered => (e.name, e.addr))

theorem SameKeys.findFunc (h : SameKeys s s') (a : Address) : s'.findFunc a = s.findFunc a := by
  have hmap : s'.funcs.map (·.addr) = s.funcs.map (·.addr) := by
    apply Array.ext_getElem?
    intro j
    have := congrArg (Option.map Prod.snd) (h j)
    simpa [Option.map_map, Function.comp_def] using this
  rw [findFunc_eq, findFunc_eq, hmap]

theorem SameKeys.findByName? (h : SameKeys s s') (n : String) :
    s'.findByName? n = s.findByName? n := by
  have hmap : s'.funcs.toList.map (·.name) = s.funcs.toList.map (·.name) := by
    apply List.ext_getElem?
    intro j
    have := congrArg (Option.map Prod.fst) (h j)
    simpa [Option.map_map, Function.comp_def] using this
  rw [findByName?_eq_names, findByName?_eq_names, hmap]

/-- A function of one session stands in the other with its name and address. -/
theorem SameKeys.transfer (h : SameKeys s s') {j : Nat} {e : Registered} (he : s.funcs[j]? = some e) :
    ∃ e', s'.funcs[j]? = some e' ∧ e'.name = e.name ∧ e'.addr = e.addr := by
  have hj := h j
  rw [he] at hj
  obtain ⟨e', he', hkey⟩ := Option.map_eq_some_iff.mp hj
  simp only [Prod.mk.injEq] at hkey
  exact ⟨e', he', hkey⟩

theorem SameKeys.symm (h : SameKeys s s') : SameKeys s' s := fun j => (h j).symm

theorem sameKeys_modify (s : Session) (id : Nat) {g : Registered → Registered}
    (hg : ∀ e, (g e).name = e.name ∧ (g e).addr = e.addr) : SameKeys s (s.modify id g) := by
  intro j
  rw [getElem?_modify]
  split
  · cases s.funcs[j]? <;> simp [hg]
  · rfl

/-- The invariant reads names and addresses only. -/
theorem Lookups.of_sameKeys (hs : s.Lookups) (h : SameKeys s s') : s'.Lookups := by
  constructor
  · intro id e he
    obtain ⟨e₀, he₀, -, haddr⟩ := h.symm.transfer he
    rw [h.findFunc, ← haddr]
    exact hs.byAddr id e₀ he₀
  · intro id e he
    obtain ⟨e₀, he₀, hname, -⟩ := h.symm.transfer he
    obtain ⟨j, e₁, hj, he₁, hname₁, hwhere⟩ := hs.byName id e₀ he₀
    obtain ⟨e', he', hname', haddr'⟩ := h.transfer he₁
    refine ⟨j, e', by rw [h.findByName?, ← hname, hj], he', by rw [hname', hname₁, hname], ?_⟩
    rcases hwhere with rfl | ⟨hlt, n, hn⟩
    · exact Or.inl rfl
    · exact Or.inr ⟨hlt, n, by rw [hname', haddr', hn]⟩

/-- **Registering a function keeps the invariant.** A name that repeats an earlier one is
given by the rename. -/
theorem Lookups.register (hs : s.Lookups) {n : String} {a : Address} {size : UInt64} {id : Nat}
    (h : s.addFunction n a size = some (s', id)) : s'.Lookups := by
  rcases addFunction_eq h with ⟨-, rfl⟩ | ⟨hfind, hcode, -, -⟩
  · exact hs
  rw [addFunction_new hfind hcode] at h
  cases h
  set new : Registered := { name := s.nameFor n a, addr := a, size }
  have hget : ∀ j, ({ s with funcs := s.funcs.push new } : Session).funcs[j]? =
      if j = s.funcs.size then some new else s.funcs[j]? := by
    intro j
    simp only [Array.getElem?_push]
  constructor
  · intro j e he
    rw [findFunc_push]
    rw [hget] at he
    split at he
    next hj =>
      cases he
      simp [new, hfind, hj]
    next =>
      rw [hs.byAddr j e he]
      rfl
  · intro j e he
    rw [hget] at he
    split at he
    next hj =>
      cases he
      exact ⟨s.funcs.size, new, by rw [findByName?_push, if_pos rfl], by rw [hget, if_pos rfl],
        rfl, Or.inl hj.symm⟩
    next hj =>
      have hlt : j < s.funcs.size := (Array.getElem?_eq_some_iff.mp he).1
      by_cases hclash : new.name = e.name
      · -- the new function takes the name over, and it got the name by the rename
        refine ⟨s.funcs.size, new, by rw [findByName?_push, if_pos hclash],
          by rw [hget, if_pos rfl], hclash, Or.inr ⟨hlt, renamed_nameFor he hclash⟩⟩
      · obtain ⟨k, e', hk, he', hname, hwhere⟩ := hs.byName j e he
        have hk_lt : k < s.funcs.size := (Array.getElem?_eq_some_iff.mp he').1
        refine ⟨k, e', by rw [findByName?_push, if_neg hclash, hk], ?_, hname, hwhere⟩
        rw [hget, if_neg (Nat.ne_of_lt hk_lt)]
        exact he'

/-- No two functions share an address. -/
theorem Lookups.nodup_addrs (hs : s.Lookups) : (s.funcs.toList.map (·.addr)).Nodup := by
  rw [List.nodup_iff_injective_get]
  rintro ⟨i, hi⟩ ⟨j, hj⟩ hij
  simp only [List.length_map, Array.length_toList] at hi hj
  simp only [List.get_eq_getElem, List.getElem_map, Array.getElem_toList] at hij
  have hfi := hs.byAddr i s.funcs[i] (Array.getElem?_eq_getElem hi)
  have hfj := hs.byAddr j s.funcs[j] (Array.getElem?_eq_getElem hj)
  rw [hij, hfj] at hfi
  exact Fin.ext (Option.some.inj hfi).symm

/-! ## Registries -/

/-- The sessions built from an empty registry by registrations, with changes between them that
keep every function's name and address (the progress of an analysis). -/
inductive Registry : Session → Prop
  | empty (ctx : Context) : Registry { ctx }
  | register {s s' : Session} {name : String} {addr : Address} {size : UInt64} {id : Nat} :
      Registry s → s.addFunction name addr size = some (s', id) → Registry s'
  | modify {s : Session} (id : Nat) {g : Registered → Registered} :
      Registry s → (∀ e, (g e).name = e.name ∧ (g e).addr = e.addr) → Registry (s.modify id g)

theorem Registry.toLookups (h : s.Registry) : s.Lookups := by
  induction h with
  | empty ctx => exact lookups_empty ctx
  | register _ hadd ih => exact ih.register hadd
  | modify id _ hg ih => exact ih.of_sameKeys (sameKeys_modify _ id hg)

/-- Symbol discovery builds a registry. -/
theorem Registry.new (ctx : Context) : (Session.new ctx).Registry := by
  unfold Session.new discoverFromSymbols
  rw [← Array.foldl_toList]
  refine foldl_invariant Registry (fun s sym hs => ?_) _ _ (Registry.empty ctx)
  split
  · exact hs
  · split
    · exact hs.register ‹_›
    · exact hs

/-- **Functions are found by address and by name.** In a session built by registrations no two
functions share an address, and every function is found at its own. Every function's name is
found too, at the function itself or at a later function that got the same name by the
rename. -/
theorem Registry.lookups (h : s.Registry) :
    (s.funcs.toList.map (·.addr)).Nodup ∧
    (∀ (id : Nat) (e : Registered), s.funcs[id]? = some e → s.findFunc e.addr = some id) ∧
    ∀ (id : Nat) (e : Registered), s.funcs[id]? = some e →
      ∃ (j : Nat) (e' : Registered), s.findByName? e.name = some j ∧ s.funcs[j]? = some e' ∧
        e'.name = e.name ∧ (j = id ∨ id < j ∧ e'.Renamed) :=
  have hs := h.toLookups
  ⟨hs.nodup_addrs, hs.byAddr, hs.byName⟩

/-- Code from `0` to `0x200`, with the symbols `f_20` at `0x100`, then `f` at `0x10` and at
`0x20`. -/
def clashImage : Image :=
  { space := 0
    regions := #[⟨0, .zeros 0x200, .code⟩]
    symbols := #[⟨"f_20", ⟨0, 0x100⟩, 4⟩, ⟨"f", ⟨0, 0x10⟩, 4⟩, ⟨"f", ⟨0, 0x20⟩, 4⟩] }

/-- A context whose image is `clashImage`. -/
def clashContext : Context := { (default : Context) with image := clashImage }

theorem registry_lookups_clash :
    (Session.new clashContext).Registry ∧
    ((Session.new clashContext).funcs.toList.map (·.addr)).Nodup ∧
    (∀ (id : Nat) (e : Registered), (Session.new clashContext).funcs[id]? = some e →
      (Session.new clashContext).findFunc e.addr = some id) ∧
    ∀ (id : Nat) (e : Registered), (Session.new clashContext).funcs[id]? = some e →
      ∃ (j : Nat) (e' : Registered), (Session.new clashContext).findByName? e.name = some j ∧
        (Session.new clashContext).funcs[j]? = some e' ∧ e'.name = e.name ∧
        (j = id ∨ id < j ∧ e'.Renamed) :=
  ⟨Registry.new clashContext, Registry.lookups (Registry.new clashContext)⟩

/-- The second `f` is renamed to `f_20`, a name the first symbol already has: the function at
`0x100` shares its name with the one at `0x20`, and is no longer found by it. -/
theorem symbols_rename_clash :
    (Session.new clashContext).funcs[0]?.map (fun e => (e.name, e.addr)) =
      some ("f_20", ⟨0, 0x100⟩) ∧
    (Session.new clashContext).funcs[2]?.map (fun e => (e.name, e.addr)) =
      some ("f_20", ⟨0, 0x20⟩) ∧
    (Session.new clashContext).findByName? "f_20" = some 2 := by
  decide +kernel

end Session

end MicroSsa
