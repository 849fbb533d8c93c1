import MicroSsa.Listing.Text
import Mathlib.Data.List.Forall2
/-!
# What each line of a listing reads as

Reading a listing either gives a value, or reports a malformed line, or breaks a contract.
`Reader.result` forgets which failure it was; it is a monad morphism into `Option`
(`result_bind`, `result_mapM`, `result_foldlM`), so a reading succeeds exactly when each of its
steps does, and with the values they give.

Each kind of line is then described by the words it must have and the value it stands for,
independently of the reader: a varnode `space:offset:size` over the space table (`VarnodeIs`), an
operation `[out =] OPCODE in…` whose opcode may be listed (`OpIs`), an instruction header
`addr len [unimplemented]` (`HeaderIs`), an `ADDRESS_SPACES` line (`Declares`), an `IMAGE` line
`kind start contents` with a run of zeros shorter than `2 ^ 63` or hexadecimal bytes
(`IsRegionLine`) and a `SYMBOLS` line `addr size name` (`IsSymbolLine`). Numbers are what
`Text.word?` reads. Each `result_` lemma says that a reader gives a value exactly when its line
has that shape.
-/

namespace MicroSsa

namespace ListingText

/-- What a reading gives when it succeeds; nothing when it finds a malformed line or breaks a
contract. -/
def Reader.result {α : Type} (x : Reader α) : Option α := x.run.toOption.bind Except.toOption

section result

variable {α β : Type}

theorem result_eq_some_iff (x : Reader α) (a : α) : x.result = some a ↔ x.run = .ok (.ok a) := by
  unfold Reader.result
  cases x.run with
  | error e => simp [Except.toOption]
  | ok r => cases r <;> simp [Except.toOption]

theorem not_ok_of_result_isNone {x : Reader α} (h : x.result.isNone = true) :
    ¬∃ a, x.run = .ok (.ok a) := by
  rintro ⟨a, ha⟩
  rw [← result_eq_some_iff] at ha
  simp [ha] at h

@[simp] theorem result_pure (a : α) : (pure a : Reader α).result = some a := rfl

@[simp] theorem result_bad (n : Nat) (m : String) : (bad n m : Reader α).result = none := rfl

@[simp] theorem result_fault (f : Fault) : (fault f : Reader α).result = none := rfl

@[simp] theorem result_throw (e : ListingError) : (throw e : Reader α).result = none := rfl

@[simp] theorem result_bind (x : Reader α) (f : α → Reader β) :
    (x >>= f).result = x.result.bind fun a => (f a).result := by
  unfold Reader.result
  rw [ExceptT.run_bind]
  cases x.run with
  | error e => rfl
  | ok r => cases r <;> rfl

@[simp] theorem result_map (f : α → β) (x : Reader α) : (f <$> x).result = x.result.map f := by
  rw [← bind_pure_comp, result_bind]
  cases x.result <;> rfl

theorem result_mapM (f : α → Reader β) :
    ∀ l : List α, (l.mapM f).result = l.mapM fun a => (f a).result
  | [] => rfl
  | a :: l => by
    simp only [List.mapM_cons, result_bind, result_pure, result_mapM f l]
    rfl

theorem result_foldlM (f : β → α → Reader β) :
    ∀ (l : List α) (b : β), (l.foldlM f b).result = l.foldlM (fun b a => (f b a).result) b
  | [], _ => rfl
  | a :: l, b => by
    simp only [List.foldlM_cons, result_bind, result_foldlM f l]
    rfl

end result

/-- A list is read element by element exactly when each element reads to the value in its place. -/
theorem mapM_eq_some_iff {α β : Type} (f : α → Option β) (l : List α) (vs : List β) :
    l.mapM f = some vs ↔ List.Forall₂ (fun a v => f a = some v) l vs := by
  induction l generalizing vs with
  | nil => cases vs <;> simp
  | cons a l ih =>
    cases vs with
    | nil =>
      rw [List.mapM_cons]
      cases f a <;> cases l.mapM f <;> simp
    | cons v vs =>
      rw [List.mapM_cons, List.forall₂_cons, ← ih]
      cases f a <;> cases l.mapM f <;> simp [eq_comm]

/-- A list is read when each of its elements is. -/
theorem isSome_mapM_iff {α β : Type} (f : α → Option β) (l : List α) :
    (l.mapM f).isSome ↔ ∀ a ∈ l, (f a).isSome := by
  induction l with
  | nil => simp
  | cons a l ih =>
    rw [List.mapM_cons]
    cases hfa : f a <;> cases hl : l.mapM f <;> simp_all

/-! ## Numbers and varnodes -/

@[simp] theorem result_number (n : Nat) (cs : List Char) : (number n cs).result = Text.word? cs := by
  unfold number
  cases Text.word? cs <;> rfl

/-- `cs` is the varnode `space:offset:size` at `loc`: the space is named in the table, offset and
size are numbers, and the size is kept modulo `2 ^ 32`. -/
def VarnodeIs (t : SpaceTable) (cs : List Char) (loc : Location) : Prop :=
  ∃ sp off sz s o z, cs.splitOn ':' = [sp, off, sz] ∧ t.byName? (String.ofList sp) = some s ∧
    Text.word? off = some o ∧ Text.word? sz = some z ∧ loc = ⟨⟨s, o⟩, z.toNat % Nat.pow 2 32⟩

theorem result_varnode (n : Nat) (t : SpaceTable) (cs : List Char) (loc : Location) :
    (varnode n t cs).result = some loc ↔ VarnodeIs t cs loc := by
  constructor
  · intro h
    unfold varnode at h
    split at h
    · next sp off sz hsplit =>
      cases hs : t.byName? (String.ofList sp) with
      | none => simp [hs] at h
      | some s =>
        cases hz : Text.word? sz <;> cases ho : Text.word? off <;> simp [hs, hz, ho] at h
        exact ⟨sp, off, sz, s, _, _, hsplit, hs, ho, hz, h.symm⟩
    · simp at h
  · rintro ⟨sp, off, sz, s, o, z, hsplit, hs, ho, hz, rfl⟩
    simp [varnode, hsplit, hs, ho, hz]

theorem result_mapM_varnode (n : Nat) (t : SpaceTable) (ws : List (List Char))
    (locs : List Location) :
    (ws.mapM (varnode n t)).result = some locs ↔ List.Forall₂ (VarnodeIs t) ws locs := by
  simp only [result_mapM, mapM_eq_some_iff, result_varnode]

/-! ## Operations and instruction headers -/

/-- `cs` is `OPCODE in…` for the operation `op` with output `output`: the opcode is named and may
be listed (it is neither `MULTIEQUAL` nor `INDIRECT`), and the inputs are varnodes. -/
def OpBodyIs (t : SpaceTable) (output : Option Location) (cs : List Char) (op : ListedOp) :
    Prop :=
  ∃ name ins, Text.words cs = name :: ins ∧ Opcode.ofName? (String.ofList name) = some op.opcode ∧
    op.opcode ≠ .multiEqual ∧ op.opcode ≠ .indirect ∧ op.output = output ∧
    List.Forall₂ (VarnodeIs t) ins op.inputs

/-- `cs` is the operation `op`, written `out = OPCODE in…` (the output is the text before the
first `=`, trimmed) or `OPCODE in…`. -/
def OpIs (t : SpaceTable) (cs : List Char) (op : ListedOp) : Prop :=
  (∃ out rest loc, Text.splitOnceAt cs '=' = some (out, rest) ∧
    VarnodeIs t (Text.trim out) loc ∧ OpBodyIs t (some loc) rest op) ∨
  (Text.splitOnceAt cs '=' = none ∧ OpBodyIs t none cs op)

theorem result_opBody (n : Nat) (t : SpaceTable) (output : Option Location) (cs : List Char)
    (op : ListedOp) : (opBody n t output cs).result = some op ↔ OpBodyIs t output cs op := by
  constructor
  · intro h
    unfold opBody at h
    split at h
    · simp at h
    · next name ins hw =>
      split at h
      · simp at h
      · next o ho =>
        split at h
        · simp at h
        · next hl =>
          simp only [Bool.or_eq_true, beq_iff_eq, not_or] at hl
          simp only [result_bind, result_pure, Option.bind_eq_some_iff, Option.some.injEq] at h
          obtain ⟨locs, hlocs, rfl⟩ := h
          exact ⟨name, ins, hw, ho, hl.1, hl.2, rfl, (result_mapM_varnode n t ins locs).mp hlocs⟩
  · rintro ⟨name, ins, hw, ho, hm, hi, hout, hins⟩
    have hl : (op.opcode == .multiEqual || op.opcode == .indirect) = false := by
      simp [hm, hi]
    have hlocs := (result_mapM_varnode n t ins op.inputs).mpr hins
    simp only [opBody, hw, ho, hl, Bool.false_eq_true, if_false, result_bind, hlocs,
      Option.bind_some, result_pure, ← hout]

theorem result_operation (n : Nat) (t : SpaceTable) (cs : List Char) (op : ListedOp) :
    (operation n t cs).result = some op ↔ OpIs t cs op := by
  unfold operation OpIs
  cases hsplit : Text.splitOnceAt cs '=' with
  | none => simp [result_opBody]
  | some p =>
    simp only [result_bind, Option.bind_eq_some_iff, result_varnode, result_opBody,
      Option.some.injEq, reduceCtorEq, false_and, or_false]
    constructor
    · rintro ⟨loc, hloc, hop⟩
      exact ⟨p.1, p.2, loc, rfl, hloc, hop⟩
    · rintro ⟨out, rest, loc, rfl, hloc, hop⟩
      exact ⟨loc, hloc, hop⟩

/-- `l` is an instruction header at `a` of length `len`: `addr len`, or `addr len unimplemented`
when `u` holds, with the address in the code space. -/
def HeaderIs (code : Nat) (l : List Char) (a : Address) (len : Nat) (u : Bool) : Prop :=
  ∃ aw lw v m, (Text.words l = [aw, lw] ∧ u = false ∨
      Text.words l = [aw, lw, "unimplemented".toList] ∧ u = true) ∧
    Text.word? aw = some v ∧ Text.word? lw = some m ∧ a = ⟨code, v⟩ ∧ len = m.toNat

/-- The state after a header: an unimplemented instruction is closed at once, any other stays
open for its operations. -/
def afterHeader (d : Decoder) (a : Address) (len : Nat) (u : Bool) : Pending :=
  if u then (d.add a ⟨len, [], true⟩, none) else (d, some (a, len, []))

theorem result_headerLine (code : Nat) (d : Decoder) (n : Nat) (l : List Char) (p : Pending) :
    (headerLine code d n l).result = some p ↔
      ∃ a len u, HeaderIs code l a len u ∧ p = afterHeader d a len u := by
  constructor
  · intro h
    unfold headerLine at h
    split at h
    · next aw lw hw =>
      cases ha : Text.word? aw <;> cases hl : Text.word? lw <;> simp [ha, hl] at h
      exact ⟨_, _, false, ⟨aw, lw, _, _, .inl ⟨hw, rfl⟩, ha, hl, rfl, rfl⟩, h.symm⟩
    · next aw lw u hw =>
      split at h
      · next hu =>
        rw [beq_iff_eq] at hu
        subst hu
        cases ha : Text.word? aw <;> cases hl : Text.word? lw <;> simp [ha, hl] at h
        exact ⟨_, _, true, ⟨aw, lw, _, _, .inr ⟨hw, rfl⟩, ha, hl, rfl, rfl⟩, h.symm⟩
      · simp at h
    · simp at h
  · rintro ⟨a, len, u, ⟨aw, lw, v, m, hw | hw, ha, hl, rfl, rfl⟩, rfl⟩
    · simp [headerLine, hw.1, hw.2, ha, hl, afterHeader]
    · simp [headerLine, hw.1, hw.2, ha, hl, afterHeader]

/-- A header reads as one address, one length and one mark. -/
theorem HeaderIs.unique {code : Nat} {l : List Char} {a a' : Address} {len len' : Nat}
    {u u' : Bool} (h : HeaderIs code l a len u) (h' : HeaderIs code l a' len' u') :
    a = a' ∧ len = len' ∧ u = u' := by
  obtain ⟨aw, lw, v, m, hw, ha, hl, rfl, rfl⟩ := h
  obtain ⟨aw', lw', v', m', hw', ha', hl', rfl, rfl⟩ := h'
  -- the two readings cut the line into the same words
  have hwords : aw = aw' ∧ lw = lw' ∧ u = u' := by
    rcases hw with ⟨hw, rfl⟩ | ⟨hw, rfl⟩ <;> rcases hw' with ⟨hw', rfl⟩ | ⟨hw', rfl⟩ <;>
      rw [hw] at hw' <;> simp_all
  obtain ⟨rfl, rfl, rfl⟩ := hwords
  rw [ha] at ha'
  rw [hl] at hl'
  cases ha'
  cases hl'
  exact ⟨rfl, rfl, rfl⟩

/-! ## Spaces, regions and symbols -/

/-- The kind of space a word names. -/
def spaceKindNamed (s : String) : Option SpaceKind :=
  if s = "processor" then some .processor
  else if s = "register" then some .register
  else if s = "unique" then some .unique
  else if s = "constant" then some .constant
  else none

@[simp] theorem result_spaceKind (n : Nat) (kind : List Char) :
    (spaceKind n kind).result = spaceKindNamed (String.ofList kind) := by
  unfold spaceKind spaceKindNamed
  split <;> simp_all

/-- `l` is the line `name kind pointer-size` that declares `s`, in byte order `e`. -/
def Declares (e : Endian) (l : List Char) (s : AddressSpace) : Prop :=
  ∃ name kind size k v, Text.words l = [name, kind, size] ∧
    spaceKindNamed (String.ofList kind) = some k ∧ Text.word? size = some v ∧
    s = ⟨String.ofList name, k, e, v.toNat⟩

theorem result_spaceLine (e : Endian) (n : Nat) (l : List Char) (s : AddressSpace) :
    (spaceLine e n l).result = some s ↔ Declares e l s := by
  constructor
  · intro h
    unfold spaceLine at h
    split at h
    · next name kind size hw =>
      cases hk : spaceKindNamed (String.ofList kind) <;>
        cases hv : Text.word? size <;> simp [hk, hv] at h
      exact ⟨name, kind, size, _, _, hw, hk, hv, h.symm⟩
    · simp at h
  · rintro ⟨name, kind, size, k, v, hw, hk, hv, rfl⟩
    simp [spaceLine, hw, hk, hv]

/-- The kind of region a word names. -/
def regionKindNamed (s : String) : Option RegionKind :=
  if s = "code" then some .code
  else if s = "rodata" then some .readOnly
  else if s = "data" then some .data
  else none

@[simp] theorem result_regionKind (n : Nat) (kind : List Char) :
    (regionKind n kind).result = regionKindNamed (String.ofList kind) := by
  unfold regionKind regionKindNamed
  split <;> simp_all

/-- The contents of a region line: the one word `+len` with fewer than `2 ^ 63` zero bytes, or
else words whose text, joined, is hexadecimal bytes. -/
def IsContents (ws : List (List Char)) : Prop :=
  (∃ len v, ws = ['+' :: len] ∧ Text.word? len = some v ∧ v.toNat < Nat.pow 2 63) ∨
  ((∀ len, ws ≠ ['+' :: len]) ∧ ∃ bs, Text.hexPairs (String.ofList ws.flatten) = .ok bs)

theorem isSome_hexBytes (n : Nat) (ws : List (List Char)) :
    (hexBytes n ws).result.isSome ↔ ∃ bs, Text.hexPairs (String.ofList ws.flatten) = .ok bs := by
  unfold hexBytes
  split <;> simp_all

theorem isSome_contents (n : Nat) (ws : List (List Char)) :
    (contents n ws).result.isSome ↔ IsContents ws := by
  unfold contents IsContents
  split
  · next len =>
    cases hv : Text.word? len with
    | none => simp [hv]
    | some v =>
      by_cases hlt : v.toNat < Nat.pow 2 63
      · simp [hv, hlt, Nat.not_le_of_lt hlt]
      · simp [hv, hlt, Nat.le_of_not_lt hlt]
  · next hws =>
    simp only [result_map, Option.isSome_map, isSome_hexBytes]
    constructor
    · exact fun h => .inr ⟨hws, h⟩
    · rintro (⟨len, v, rfl, -⟩ | ⟨-, h⟩)
      · exact absurd rfl (hws len)
      · exact h

/-- A line `kind start contents` of `IMAGE`. -/
def IsRegionLine (l : List Char) : Prop :=
  ∃ kind start ws, Text.words l = kind :: start :: ws ∧
    (regionKindNamed (String.ofList kind)).isSome ∧ (Text.word? start).isSome ∧ IsContents ws

theorem isSome_regionLine (n : Nat) (l : List Char) :
    (regionLine n l).result.isSome ↔ IsRegionLine l := by
  constructor
  · intro h
    unfold regionLine at h
    split at h
    · next kind start ws hw =>
      cases hk : regionKindNamed (String.ofList kind) <;>
        cases hs : Text.word? start <;> simp [hk, hs] at h
      exact ⟨kind, start, ws, hw, by simp [hk], by simp [hs], (isSome_contents n ws).mp h⟩
    · simp at h
  · rintro ⟨kind, start, ws, hw, hk, hs, hc⟩
    obtain ⟨k, hk⟩ := Option.isSome_iff_exists.mp hk
    obtain ⟨st, hs⟩ := Option.isSome_iff_exists.mp hs
    obtain ⟨c, hc⟩ := Option.isSome_iff_exists.mp ((isSome_contents n ws).mpr hc)
    simp [regionLine, hw, hk, hs, hc]

/-- A line `addr size name` of `SYMBOLS`. -/
def IsSymbolLine (l : List Char) : Prop :=
  ∃ a s name, Text.words l = [a, s, name] ∧ (Text.word? a).isSome ∧ (Text.word? s).isSome

theorem isSome_symbolLine (img : Image) (nl : Nat × List Char) :
    (symbolLine img nl).result.isSome ↔ IsSymbolLine nl.2 := by
  constructor
  · intro h
    unfold symbolLine at h
    split at h
    · next a s name hw =>
      cases ha : Text.word? a <;> cases hs : Text.word? s <;> simp [ha, hs] at h
      exact ⟨a, s, name, hw, by simp [ha], by simp [hs]⟩
    · simp at h
  · rintro ⟨a, s, name, hw, ha, hs⟩
    obtain ⟨va, ha⟩ := Option.isSome_iff_exists.mp ha
    obtain ⟨vs, hs⟩ := Option.isSome_iff_exists.mp hs
    simp [symbolLine, hw, ha, hs]

end ListingText

end MicroSsa
