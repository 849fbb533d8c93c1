import MicroSsa.Proofs.Listing.Sections
/-!
# Which texts are listings, and what their decoder answers

`IsListing` describes a listing text without the reader: its kept lines cut into sections opened by
header lines; `ARCH`, `ADDRESS_SPACES` and `LISTING` are given; every `ARCH` line is `key value`;
the last `big_endian`, `code_space`, `sp` and `lr` lines give a byte order, a space of the table,
a varnode and, if present, another varnode; the spaces are declared one per line and fit a table
of at most 255 spaces once `const` is added (it is added only when no declared space is a
constant space); `IMAGE` and `SYMBOLS` lines have their shapes; and `LISTING` cuts into
instruction blocks, each a header line and the indented operation lines below it, where an
unimplemented instruction has none.

`ofText_ok_iff_isListing` says that reading a text succeeds exactly on such texts, and that the
decoder read then answers, for every address, with the instruction of the last block listed
there (`DecodesAfter`): its length and its operations in order, or that it is unimplemented, and
nothing for an address no block lists.

The decoder is built one block at a time, and the step lemma `DecodesAfter.snoc` says what one
more block does to it; `foldlM_listingBlocks` carries it over all the blocks.
-/

namespace MicroSsa

namespace Decoder

/-- Listing an instruction at `a` changes what the decoder answers at `a`, and nowhere else. -/
theorem decode_add (d : Decoder) (a a' : Address) (i : Instruction) :
    (d.add a i).decode a' =
      if a = a' then (if i.unimplemented then .unimplemented else .instruction i.len i.ops)
      else d.decode a' := by
  simp only [add, decode]
  rw [ListingText.find?_replace]
  by_cases h : a = a' <;> simp [h]

end Decoder

namespace ListingText

/-! ## Lines of `LISTING` -/

/-- A line that starts with a blank: an operation of the instruction above. -/
def indented (l : List Char) : Bool := l.head?.any Text.isBlank

/-- One line of `LISTING` as a step on the state of reading. -/
def listingStep (t : SpaceTable) (code : Nat) (p : Pending) (nl : Nat × List Char) :
    Option Pending :=
  (listingLine t code p nl.1 nl.2).result

section listing

variable (t : SpaceTable) (code : Nat)

theorem listingStep_indented {nl : Nat × List Char} (h : indented nl.2 = true) (p : Pending) :
    listingStep t code p nl = (opLine t p nl.1 nl.2).result := by
  obtain ⟨n, l⟩ := nl
  cases l with
  | nil => simp [indented] at h
  | cons c cs =>
    simp only [indented, List.head?_cons, Option.any_some] at h
    simp [listingStep, listingLine, h]

theorem listingStep_header {nl : Nat × List Char} (hne : nl.2 ≠ []) (h : indented nl.2 = false)
    (p : Pending) : listingStep t code p nl = (headerLine code (flush p) nl.1 nl.2).result := by
  obtain ⟨n, l⟩ := nl
  cases l with
  | nil => exact absurd rfl hne
  | cons c cs =>
    simp only [indented, List.head?_cons, Option.any_some] at h
    simp [listingStep, listingLine, h]

/-- Operation lines after an open instruction add their operations to it, in order. -/
theorem foldlM_opLines_open (body : List (Nat × List Char))
    (hind : ∀ o ∈ body, indented o.2 = true) (d : Decoder) (a : Address) (len : Nat)
    (ops₀ : List ListedOp) (p' : Pending) :
    body.foldlM (listingStep t code) (d, some (a, len, ops₀)) = some p' ↔
      ∃ ops, List.Forall₂ (fun o op => OpIs t (Text.trim o.2) op) body ops ∧
        p' = (d, some (a, len, ops₀ ++ ops)) := by
  induction body generalizing ops₀ with
  | nil => simp [eq_comm]
  | cons o body ih =>
    rw [List.foldlM_cons, listingStep_indented t code (hind o (by simp))]
    simp only [opLine, result_bind, result_pure, Option.bind_eq_bind]
    cases hop : (operation o.1 t (Text.trim o.2)).result with
    | none =>
      simp only [Option.bind_none, reduceCtorEq, false_iff, not_exists, not_and,
        List.forall₂_cons_left_iff]
      rintro ops ⟨op, ops', hop', -, rfl⟩ -
      rw [← result_operation o.1] at hop'
      simp [hop] at hop'
    | some op =>
      -- the operation read joins the open instruction, and the rest follow it
      have hop' := (result_operation o.1 t (Text.trim o.2) op).mp hop
      simp only [Option.bind_some, List.forall₂_cons_left_iff]
      rw [ih (fun o' ho' => hind o' (by simp [ho']))]
      constructor
      · rintro ⟨ops, hops, rfl⟩
        exact ⟨op :: ops, ⟨op, ops, hop', hops, rfl⟩, by simp⟩
      · rintro ⟨_, ⟨op', ops, hop'', hops, rfl⟩, rfl⟩
        have hsame : op' = op := by
          rw [← result_operation o.1, hop] at hop''
          exact (Option.some.inj hop'').symm
        subst hsame
        exact ⟨ops, hops, by simp⟩

/-- No operation line may follow a closed instruction. -/
theorem foldlM_opLines_closed (body : List (Nat × List Char))
    (hind : ∀ o ∈ body, indented o.2 = true) (d : Decoder) (p' : Pending) :
    body.foldlM (listingStep t code) (d, none) = some p' ↔ body = [] ∧ p' = (d, none) := by
  cases body with
  | nil => simp [eq_comm]
  | cons o body =>
    rw [List.foldlM_cons, listingStep_indented t code (hind o (by simp))]
    simp [opLine]

end listing

/-! ## Instruction blocks -/

/-- Block `g` lists the instruction `i` at `a`: its header reads as `a`, the length and whether
the instruction is unimplemented; an unimplemented instruction has no operation lines; and each
operation line, trimmed, reads as the operation in its place. -/
def ListsAt (t : SpaceTable) (code : Nat) (g : LineBlock) (a : Address) (i : Instruction) :
    Prop :=
  HeaderIs code g.1.2 a i.len i.unimplemented ∧ (i.unimplemented = true → g.2 = []) ∧
    List.Forall₂ (fun o op => OpIs t (Text.trim o.2) op) g.2 i.ops

/-- The header of block `g` reads as the address `a`. -/
def ListedAt (code : Nat) (g : LineBlock) (a : Address) : Prop :=
  ∃ len u, HeaderIs code g.1.2 a len u

/-- A block is read when it lists an instruction, and reading it lists that instruction on top of
the decoder closed before it. -/
theorem foldlM_listingBlock (t : SpaceTable) (code : Nat) (g : LineBlock) (hne : g.1.2 ≠ [])
    (hhead : indented g.1.2 = false) (hbody : ∀ o ∈ g.2, indented o.2 = true) (p : Pending) :
    (((g.1 :: g.2).foldlM (listingStep t code) p).isSome ↔ ∃ a i, ListsAt t code g a i) ∧
    ∀ p', (g.1 :: g.2).foldlM (listingStep t code) p = some p' →
      ∃ a i, ListsAt t code g a i ∧ flush p' = (flush p).add a i := by
  rw [List.foldlM_cons, listingStep_header t code hne hhead]
  simp only [Option.bind_eq_bind]
  cases hh : (headerLine code (flush p) g.1.1 g.1.2).result with
  | none =>
    refine ⟨⟨fun h => by simp at h, ?_⟩, fun p' h => by simp at h⟩
    -- a header that reads gives the reader a state
    rintro ⟨a, i, hg⟩
    have := (result_headerLine code (flush p) g.1.1 g.1.2 _).mpr
      ⟨a, i.len, i.unimplemented, hg.1, rfl⟩
    simp [hh] at this
  | some q =>
    obtain ⟨a, len, u, hhd, rfl⟩ := (result_headerLine code (flush p) g.1.1 g.1.2 q).mp hh
    simp only [Option.bind_some]
    cases u with
    | false =>
      -- an instruction with operations stays open for its operation lines
      have hbodyfold := foldlM_opLines_open t code g.2 hbody (flush p) a len []
      simp only [afterHeader, Bool.false_eq_true, if_false]
      refine ⟨⟨fun h => ?_, ?_⟩, fun p' h => ?_⟩
      · obtain ⟨p', hp'⟩ := Option.isSome_iff_exists.mp h
        obtain ⟨ops, hops, -⟩ := (hbodyfold p').mp hp'
        exact ⟨a, ⟨len, ops, false⟩, hhd, by simp, hops⟩
      · rintro ⟨a', i, hg⟩
        rw [(hbodyfold _).mpr ⟨i.ops, hg.2.2, rfl⟩]
        rfl
      · obtain ⟨ops, hops, rfl⟩ := (hbodyfold p').mp h
        exact ⟨a, ⟨len, ops, false⟩, ⟨hhd, by simp, hops⟩, by simp [flush]⟩
    | true =>
      -- an unimplemented instruction is closed at once
      have hbodyfold := foldlM_opLines_closed t code g.2 hbody ((flush p).add a ⟨len, [], true⟩)
      simp only [afterHeader, if_true]
      refine ⟨⟨fun h => ?_, ?_⟩, fun p' h => ?_⟩
      · obtain ⟨p', hp'⟩ := Option.isSome_iff_exists.mp h
        obtain ⟨hnil, -⟩ := (hbodyfold p').mp hp'
        exact ⟨a, ⟨len, [], true⟩, hhd, fun _ => hnil, by simp [hnil]⟩
      · rintro ⟨a', i, hg⟩
        obtain ⟨-, -, hu⟩ := hhd.unique hg.1
        rw [(hbodyfold _).mpr ⟨hg.2.1 hu.symm, rfl⟩]
        rfl
      · obtain ⟨hnil, rfl⟩ := (hbodyfold p').mp h
        exact ⟨a, ⟨len, [], true⟩, ⟨hhd, fun _ => hnil, by simp [hnil]⟩, rfl⟩

/-! ## The decoder -/

/-- After the blocks `gs`, listed in order on top of the decoder `d`, the decoder `d'` answers for
an address that no block of `gs` is listed at as `d` does, and for any other address with the
instruction that the last block listed there lists. -/
structure DecodesAfter (t : SpaceTable) (code : Nat) (d : Decoder) (gs : SectionBlocks)
    (d' : Decoder) : Prop where
  unlisted : ∀ a, (∀ g ∈ gs, ¬ListedAt code g a) → d'.decode a = d.decode a
  last : ∀ a pre g post, gs = pre ++ g :: post → ListedAt code g a →
    (∀ g' ∈ post, ¬ListedAt code g' a) →
    ∃ i, ListsAt t code g a i ∧
      d'.decode a = if i.unimplemented then .unimplemented else .instruction i.len i.ops

theorem DecodesAfter.nil (t : SpaceTable) (code : Nat) (d : Decoder) :
    DecodesAfter t code d [] d :=
  ⟨fun _ _ => rfl, fun _ pre g post h => absurd h.symm (by simp)⟩

/-- One more block: the instruction it lists answers at its address, and only there. -/
theorem DecodesAfter.snoc {t : SpaceTable} {code : Nat} {d d' : Decoder} {gs : SectionBlocks}
    {g : LineBlock} {a : Address} {i : Instruction} (h : DecodesAfter t code d gs d')
    (hg : ListsAt t code g a i) : DecodesAfter t code d (gs ++ [g]) (d'.add a i) := by
  have hga : ListedAt code g a := ⟨i.len, i.unimplemented, hg.1⟩
  have hat : ∀ a', ListedAt code g a' → a = a' := by
    rintro a' ⟨len, u, h'⟩
    exact (hg.1.unique h').1
  constructor
  · intro a' hnone
    have hne : a ≠ a' := fun he => hnone g (by simp) (he ▸ hga)
    rw [Decoder.decode_add, if_neg hne]
    exact h.unlisted a' fun g' hg' => hnone g' (by simp [hg'])
  · intro a' pre g' post heq hlisted hlater
    rcases List.eq_nil_or_concat post with rfl | ⟨post', x, rfl⟩
    · -- the last block at `a'` is the new one
      have h' : gs ++ [g] = pre ++ [g'] := by simpa using heq
      obtain ⟨-, hgg⟩ := List.append_inj' h' rfl
      obtain rfl : g = g' := by simpa using hgg
      obtain rfl := hat a' hlisted
      exact ⟨i, hg, by rw [Decoder.decode_add, if_pos rfl]⟩
    · -- it is an earlier block, and the new one is listed elsewhere
      have h' : gs ++ [g] = (pre ++ g' :: post') ++ [x] := by simpa using heq
      obtain ⟨rfl, hgx⟩ := List.append_inj' h' rfl
      obtain rfl : g = x := by simpa using hgx
      have hne : a ≠ a' := fun he => hlater g (by simp) (he ▸ hga)
      rw [Decoder.decode_add, if_neg hne]
      exact h.last a' pre g' post' rfl hlisted fun g'' hg'' => hlater g'' (by simp [hg''])

section blocks

variable (t : SpaceTable) (code : Nat)

/-- Reading the blocks in order: they are read when each lists an instruction, and the decoder
then answers from the last block at each address. -/
theorem foldlM_listingBlocks (gs : SectionBlocks) (hne : ∀ g ∈ gs, g.1.2 ≠ [])
    (hhead : ∀ g ∈ gs, indented g.1.2 = false) (hbody : ∀ g ∈ gs, ∀ o ∈ g.2, indented o.2 = true)
    (d : Decoder) (pre : SectionBlocks) (p : Pending) (hpre : DecodesAfter t code d pre (flush p)) :
    (((gs.flatMap fun g => g.1 :: g.2).foldlM (listingStep t code) p).isSome ↔
      ∀ g ∈ gs, ∃ a i, ListsAt t code g a i) ∧
    ∀ p', (gs.flatMap fun g => g.1 :: g.2).foldlM (listingStep t code) p = some p' →
      DecodesAfter t code d (pre ++ gs) (flush p') := by
  induction gs generalizing pre p with
  | nil =>
    refine ⟨by simp, fun p' h => ?_⟩
    simp only [List.flatMap_nil, List.foldlM_nil, Option.pure_def, Option.some.injEq] at h
    simpa [← h] using hpre
  | cons g gs ih =>
    have hblock := foldlM_listingBlock t code g (hne g (by simp)) (hhead g (by simp))
      (hbody g (by simp)) p
    rw [List.flatMap_cons, List.foldlM_append]
    simp only [Option.bind_eq_bind]
    cases hq : (g.1 :: g.2).foldlM (listingStep t code) p with
    | none =>
      refine ⟨⟨fun h => by simp at h, fun hall => ?_⟩, fun p' h => by simp at h⟩
      have := hblock.1.mpr (hall g (by simp))
      simp [hq] at this
    | some q =>
      -- the block lists its instruction, then the rest are read on top of it
      obtain ⟨a, i, hg, hflush⟩ := hblock.2 q hq
      have hnext : DecodesAfter t code d (pre ++ [g]) (flush q) := hflush ▸ hpre.snoc hg
      obtain ⟨ihsome, ihlast⟩ := ih (fun g' hg' => hne g' (by simp [hg']))
        (fun g' hg' => hhead g' (by simp [hg'])) (fun g' hg' => hbody g' (by simp [hg']))
        (pre ++ [g]) q hnext
      simp only [Option.bind_some]
      refine ⟨?_, fun p' h => by simpa using ihlast p' h⟩
      rw [ihsome]
      constructor
      · intro hall g' hg'
        rcases List.mem_cons.mp hg' with rfl | hg'
        · exact ⟨a, i, hg⟩
        · exact hall g' hg'
      · exact fun hall g' hg' => hall g' (by simp [hg'])

/-- Reading `LISTING`: the lines are read exactly when they cut into instruction blocks that
each list an instruction, and the decoder then answers from the last block at each address. -/
theorem listing_decodes (ls : List (Nat × List Char)) (hne : ∀ nl ∈ ls, nl.2 ≠ []) :
    ((ls.foldlM (listingStep t code) ({}, none)).isSome ↔
      ∃ gs, IsBlocks (fun nl => !indented nl.2) ls gs ∧ ∀ g ∈ gs, ∃ a i, ListsAt t code g a i) ∧
    ∀ p gs, ls.foldlM (listingStep t code) ({}, none) = some p →
      IsBlocks (fun nl => !indented nl.2) ls gs → DecodesAfter t code {} gs (flush p) := by
  have hblocks : ∀ gs, IsBlocks (fun nl => !indented nl.2) ls gs →
      ((ls.foldlM (listingStep t code) ({}, none)).isSome ↔
        ∀ g ∈ gs, ∃ a i, ListsAt t code g a i) ∧
      ∀ p', ls.foldlM (listingStep t code) ({}, none) = some p' →
        DecodesAfter t code {} gs (flush p') := by
    intro gs hgs
    have hmem : ∀ g ∈ gs, g.1 ∈ ls := fun g hg =>
      hgs.flatten_eq ▸ List.mem_flatMap.mpr ⟨g, hg, by simp⟩
    have key := foldlM_listingBlocks t code gs (fun g hg => hne g.1 (hmem g hg))
      (fun g hg => by simpa using hgs.head_opens g hg)
      (fun g hg o ho => by simpa using hgs.body_closed g hg o ho) {} [] ({}, none)
      (DecodesAfter.nil t code {})
    rw [← hgs.flatten_eq, List.nil_append] at key
    exact key
  refine ⟨⟨fun h => ?_, ?_⟩, fun p gs h hgs => (hblocks gs hgs).2 p h⟩
  · -- an operation line before any header stops the reading
    have hfirst : ∀ nl ∈ ls.head?, (!indented nl.2) = true := by
      intro nl hnl
      cases ls with
      | nil => simp at hnl
      | cons x xs =>
        simp only [List.head?_cons, Option.mem_def, Option.some.injEq] at hnl
        subst hnl
        by_contra hind
        simp only [Bool.not_eq_true', Bool.not_eq_false] at hind
        rw [List.foldlM_cons, listingStep_indented t code hind] at h
        simp [opLine] at h
    obtain ⟨gs, hgs⟩ := (exists_isBlocks_iff _ ls).mpr hfirst
    exact ⟨gs, hgs, ((hblocks gs hgs).1).mp h⟩
  · rintro ⟨gs, hgs, hall⟩
    exact ((hblocks gs hgs).1).mpr hall

end blocks

/-! ## Listing texts -/

/-- A listing text, with the cuts and values that reading it goes through: the sections `bs`,
the byte order `e`, the spaces `declared`, the space table `t` (the declared spaces and, unless
one of them is a constant space, `const`), the code space and the instruction blocks `gs`. -/
structure IsListing (text : String) (bs : SectionBlocks) (e : Endian)
    (declared : List AddressSpace) (t : SpaceTable) (code : Nat) (gs : SectionBlocks) : Prop where
  sections : IsBlocks (fun nl => isHeader nl.2) (keptLines text) bs
  hasArch : hasBlock bs "ARCH" = true
  hasSpaces : hasBlock bs "ADDRESS_SPACES" = true
  hasListing : hasBlock bs "LISTING" = true
  keyValues : ∀ nl ∈ linesUnder bs "ARCH", (archEntry nl).isSome
  bigEndian : ((archValue (linesUnder bs "ARCH") "big_endian").bind fun nv => endianNamed nv.2) =
    some e
  declares : List.Forall₂ (fun nl s => Declares e nl.2 s) (linesUnder bs "ADDRESS_SPACES") declared
  table : SpaceTable.build declared.toArray = .ok t
  codeSpace : ((archValue (linesUnder bs "ARCH") "code_space").bind
    fun nv => t.byName? (String.ofList nv.2)) = some code
  sp : ∃ nv loc, archValue (linesUnder bs "ARCH") "sp" = some nv ∧ VarnodeIs t nv.2 loc
  lr : ∀ nv, archValue (linesUnder bs "ARCH") "lr" = some nv → ∃ loc, VarnodeIs t nv.2 loc
  regions : ∀ nl ∈ linesUnder bs "IMAGE", IsRegionLine nl.2
  symbols : ∀ nl ∈ linesUnder bs "SYMBOLS", IsSymbolLine nl.2
  instructions : IsBlocks (fun nl => !indented nl.2) (linesUnder bs "LISTING") gs
  listed : ∀ g ∈ gs, ∃ a i, ListsAt t code g a i

theorem isSome_regions (ls : List (Nat × List Char)) :
    ((ls.mapM fun nl => regionLine nl.1 nl.2).result).isSome ↔ ∀ nl ∈ ls, IsRegionLine nl.2 := by
  rw [result_mapM, isSome_mapM_iff]
  simp only [isSome_regionLine]

theorem isSome_symbols (ls : List (Nat × List Char)) (img : Image) :
    (ls.foldlM (fun b a => (symbolLine b a).result) img).isSome ↔
      ∀ nl ∈ ls, IsSymbolLine nl.2 := by
  induction ls generalizing img with
  | nil => simp
  | cons x ls ih =>
    rw [List.foldlM_cons, List.forall_mem_cons, ← isSome_symbolLine img x]
    cases hx : (symbolLine img x).result with
    | none => simp [Option.bind_eq_bind]
    | some img' => simp [Option.bind_eq_bind, ih]

theorem ne_nil_of_mem_keptLines {text : String} {nl : Nat × List Char}
    (h : nl ∈ keptLines text) : nl.2 ≠ [] := by
  intro hnil
  have hs := not_skipped_of_mem_keptLines h
  rw [hnil] at hs
  exact absurd hs (by decide)

theorem mem_keptLines_of_mem_linesUnder {text : String} {bs : SectionBlocks}
    (hbs : IsBlocks (fun nl => isHeader nl.2) (keptLines text) bs) {h : String}
    {nl : Nat × List Char} (hnl : nl ∈ linesUnder bs h) : nl ∈ keptLines text := by
  obtain ⟨b, hb, hnlb⟩ := List.mem_flatMap.mp hnl
  rw [hbs.flatten_eq]
  exact List.mem_flatMap.mpr ⟨b, (List.mem_filter.mp hb).1, List.mem_cons_of_mem _ hnlb⟩

theorem lookup_eq_some_iff {ss : Sections} {bs : SectionBlocks}
    (hlook : ∀ h, ss.lookup h = if hasBlock bs h then some (linesUnder bs h) else none)
    (h : String) (ls : List (Nat × List Char)) :
    ss.lookup h = some ls ↔ hasBlock bs h = true ∧ ls = linesUnder bs h := by
  rw [hlook]
  cases hasBlock bs h <;> simp [eq_comm]

theorem optionalSection_eq_linesUnder {ss : Sections} {bs : SectionBlocks}
    (hlook : ∀ h, ss.lookup h = if hasBlock bs h then some (linesUnder bs h) else none)
    (h : String) : optionalSection ss h = linesUnder bs h := by
  rw [optionalSection_eq, hlook]
  cases hh : hasBlock bs h with
  | false => simp [linesUnder_eq_nil hh]
  | true => rfl

/-- A listing text is read, and the listing read has the table and code space of the text and
answers from its instruction blocks. -/
theorem read_of_isListing {text : String} {bs : SectionBlocks} {e : Endian}
    {declared : List AddressSpace} {t : SpaceTable} {code : Nat} {gs : SectionBlocks}
    (h : IsListing text bs e declared t code gs) :
    ∃ L, (ListingText.read text).result = some L ∧ L.arch.spaces = t ∧ L.arch.codeSpace = code ∧
      DecodesAfter t code {} gs L.decoder := by
  -- the sections, as the blocks cut them
  obtain ⟨ss, hss⟩ := Option.isSome_iff_exists.mp ((sections_lookup text).1.mpr ⟨bs, h.sections⟩)
  have hlook := (sections_lookup text).2 ss bs hss h.sections
  have harch := (lookup_eq_some_iff hlook "ARCH" _).mpr ⟨h.hasArch, rfl⟩
  have hspaces := (lookup_eq_some_iff hlook "ADDRESS_SPACES" _).mpr ⟨h.hasSpaces, rfl⟩
  have hlist := (lookup_eq_some_iff hlook "LISTING" _).mpr ⟨h.hasListing, rfl⟩
  -- the architecture
  obtain ⟨props, hprops⟩ := Option.isSome_iff_exists.mp ((archEntries_find? _).1.mpr h.keyValues)
  have hfind := (archEntries_find? _).2 props hprops
  have he : (endianOf props).result = some e := by
    rw [result_endianOf, hfind]
    exact h.bigEndian
  have ht := (result_spaceTable e _ t).mpr ⟨declared, h.declares, h.table⟩
  have hcode : (codeSpaceOf props t).result = some code := by
    rw [result_codeSpaceOf, hfind]
    exact h.codeSpace
  obtain ⟨nv, loc, hnv, hloc⟩ := h.sp
  have hspKey : (archKey props "sp").result = some nv := by rw [result_archKey, hfind, hnv]
  have hsp := (result_varnode nv.1 t nv.2 loc).mpr hloc
  obtain ⟨lr, hlr⟩ : ∃ lr, (linkRegister props t).result = some lr := by
    rw [result_linkRegister, hfind]
    cases hv : archValue (linesUnder bs "ARCH") "lr" with
    | none => exact ⟨none, rfl⟩
    | some nv' =>
      obtain ⟨loc', hloc'⟩ := h.lr nv' hv
      exact ⟨some loc', by simp [(result_varnode nv'.1 t nv'.2 loc').mpr hloc']⟩
  -- the image, the symbols and the instructions
  obtain ⟨regions, hregions⟩ := Option.isSome_iff_exists.mp ((isSome_regions _).mpr
    (optionalSection_eq_linesUnder hlook "IMAGE" ▸ h.regions))
  obtain ⟨image, himage⟩ := Option.isSome_iff_exists.mp
    ((isSome_symbols _ (regions.foldl Image.addRegion { space := code })).mpr
      (optionalSection_eq_linesUnder hlook "SYMBOLS" ▸ h.symbols))
  have hne : ∀ nl ∈ linesUnder bs "LISTING", nl.2 ≠ [] := fun nl hnl =>
    ne_nil_of_mem_keptLines (mem_keptLines_of_mem_linesUnder h.sections hnl)
  have hdecodes := listing_decodes t code (linesUnder bs "LISTING") hne
  obtain ⟨p, hp⟩ := Option.isSome_iff_exists.mp (hdecodes.1.mpr ⟨gs, h.instructions, h.listed⟩)
  have hp' : (linesUnder bs "LISTING").foldlM (fun b a => (listingLine t code b a.1 a.2).result)
      ({}, none) = some p := hp
  refine ⟨⟨((props.find? (·.1 == "name")).map fun e => String.ofList e.2.2).getD "listing",
    ⟨t, code, loc, lr⟩, image, flush p⟩, ?_, rfl, rfl, hdecodes.2 p gs hp h.instructions⟩
  unfold ListingText.read
  simp only [result_bind, result_section?, result_pure, result_foldlM, hss, harch, hprops, he,
    hspaces, ht, hcode, hspKey, hsp, hlr, hregions, himage, hlist, hp', Option.bind_some]

/-- A text that is read is a listing text: its lines cut into sections and instruction blocks,
and each stage of the reading succeeded on them. -/
theorem isListing_of_read {text : String} {L : Listing}
    (hL : (ListingText.read text).result = some L) :
    ∃ bs e declared t code gs, IsListing text bs e declared t code gs := by
  unfold ListingText.read at hL
  simp only [result_bind, result_section?, result_pure, result_foldlM,
    Option.bind_eq_some_iff] at hL
  obtain ⟨ss, hss, archLs, harch, props, hprops, e, he, spaceLs, hspaces, t, ht, code, hcode,
    nv, hnv, sp, hsp, lr, hlr, regions, hregions, image, himage, listLs, hlist, p, hp, -⟩ := hL
  -- the sections, as blocks
  obtain ⟨bs, hbs⟩ := (sections_lookup text).1.mp (by simp [hss])
  have hlook := (sections_lookup text).2 ss bs hss hbs
  obtain ⟨hasArch, rfl⟩ := (lookup_eq_some_iff hlook _ _).mp harch
  obtain ⟨hasSpaces, rfl⟩ := (lookup_eq_some_iff hlook _ _).mp hspaces
  obtain ⟨hasListing, rfl⟩ := (lookup_eq_some_iff hlook _ _).mp hlist
  have hfind := (archEntries_find? _).2 props hprops
  obtain ⟨declared, hdecl, htable⟩ := (result_spaceTable e _ t).mp ht
  -- the instruction blocks
  have hne : ∀ nl ∈ linesUnder bs "LISTING", nl.2 ≠ [] := fun nl hnl =>
    ne_nil_of_mem_keptLines (mem_keptLines_of_mem_linesUnder hbs hnl)
  have hp' : (linesUnder bs "LISTING").foldlM (listingStep t code) ({}, none) = some p := hp
  obtain ⟨gs, hgs, hlisted⟩ := (listing_decodes t code _ hne).1.mp (by simp [hp'])
  refine ⟨bs, e, declared, t, code, gs, hbs, hasArch, hasSpaces, hasListing,
    (archEntries_find? _).1.mp (by simp [hprops]), ?_, hdecl, htable, ?_, ?_, ?_, ?_, ?_, hgs,
    hlisted⟩
  · rw [← hfind]
    rwa [result_endianOf] at he
  · rw [← hfind]
    rwa [result_codeSpaceOf] at hcode
  · rw [result_archKey, hfind] at hnv
    exact ⟨nv, sp, hnv, (result_varnode nv.1 t nv.2 sp).mp hsp⟩
  · intro nv' hv'
    rw [result_linkRegister, hfind, hv'] at hlr
    simp only [Option.elim_some, Option.map_eq_some_iff] at hlr
    obtain ⟨loc, hloc, -⟩ := hlr
    exact ⟨loc, (result_varnode nv'.1 t nv'.2 loc).mp hloc⟩
  · rw [← optionalSection_eq_linesUnder hlook]
    exact (isSome_regions _).mp (by simp [hregions])
  · rw [← optionalSection_eq_linesUnder hlook]
    exact (isSome_symbols _ (regions.foldl Image.addRegion { space := code })).mp (by simp [himage])

/-- Reading a listing text succeeds exactly when the text is a listing text: its kept lines
cut into sections opened by header lines, with `ARCH`, `ADDRESS_SPACES` and `LISTING` among
them; every `ARCH` line is `key value`, and the last lines of `big_endian`, `code_space`, `sp`
and `lr` name a byte order, a space of the table, a varnode and, when present, a varnode; the
declared spaces, with `const` added unless one of them is a constant space, are at most 255;
the `IMAGE` and `SYMBOLS` lines have their shapes, a run of zeros being shorter than `2 ^ 63`;
and `LISTING` cuts into blocks of a header and its indented operation lines, where the header of
an unimplemented instruction has none below it. The listing read then has that table and code
space, and its decoder answers for every address with the last instruction listed there, with
its length and operations in order or as unimplemented, and with nothing where none is. -/
theorem ofText_ok_iff_isListing (text : String) :
    ((∃ L, Listing.ofText text = .ok (.ok L)) ↔
      ∃ bs e declared t code gs, IsListing text bs e declared t code gs) ∧
    ∀ L bs e declared t code gs, Listing.ofText text = .ok (.ok L) →
      IsListing text bs e declared t code gs →
      L.arch.spaces = t ∧ L.arch.codeSpace = code ∧ DecodesAfter t code {} gs L.decoder := by
  have hrun : ∀ L, Listing.ofText text = .ok (.ok L) ↔ (ListingText.read text).result = some L :=
    fun L => (result_eq_some_iff _ L).symm
  refine ⟨⟨?_, ?_⟩, ?_⟩
  · rintro ⟨L, hL⟩
    exact isListing_of_read ((hrun L).mp hL)
  · rintro ⟨bs, e, declared, t, code, gs, h⟩
    obtain ⟨L, hL, -⟩ := read_of_isListing h
    exact ⟨L, (hrun L).mpr hL⟩
  · intro L bs e declared t code gs hL h
    obtain ⟨L', hL', hspaces, hcode, hdecodes⟩ := read_of_isListing h
    obtain rfl : L = L' := Option.some.inj (((hrun L).mp hL).symm.trans hL')
    exact ⟨hspaces, hcode, hdecodes⟩

/-- A small listing text: one instruction at `0x1000` that returns through a register. -/
def returnListing : String :=
  "ARCH\nbig_endian false\ncode_space ram\nsp register:0x34:4\n\nADDRESS_SPACES\n" ++
    "ram processor 4\nregister register 4\n\nLISTING\n0x1000 4\n  RETURN register:0x38:4\n"

theorem ofText_ok_iff_isListing_return :
    ∃ L bs e declared t code gs, Listing.ofText returnListing = .ok (.ok L) ∧
      IsListing returnListing bs e declared t code gs ∧ DecodesAfter t code {} gs L.decoder := by
  have hread : (ListingText.read returnListing).result.isSome = true := by decide +kernel
  obtain ⟨L, hL⟩ := Option.isSome_iff_exists.mp hread
  have hrun : Listing.ofText returnListing = .ok (.ok L) := (result_eq_some_iff _ _).mp hL
  obtain ⟨bs, e, declared, t, code, gs, h⟩ :=
    (ofText_ok_iff_isListing returnListing).1.mp ⟨L, hrun⟩
  exact ⟨L, bs, e, declared, t, code, gs, hrun, h,
    ((ofText_ok_iff_isListing returnListing).2 L bs e declared t code gs hrun h).2.2⟩

/-- Four texts whose sections and lines all have their shapes, and that are no listings: an
`lr` that names no varnode, a run of `2 ^ 63` zero bytes, a declared constant space that keeps
`const` out of the table, and an operation line under an unimplemented instruction. -/
theorem ofText_rejects_shapely_texts :
    (¬∃ L, Listing.ofText ("ARCH\nbig_endian false\ncode_space ram\nsp register:0x34:4\n" ++
      "lr bogus\n\nADDRESS_SPACES\nram processor 4\nregister register 4\n\nLISTING\n") =
      .ok (.ok L)) ∧
    (¬∃ L, Listing.ofText ("ARCH\nbig_endian false\ncode_space ram\nsp register:0x34:4\n\n" ++
      "ADDRESS_SPACES\nram processor 4\nregister register 4\n\nIMAGE\n" ++
      "data 0x0 +0x8000000000000000\n\nLISTING\n") = .ok (.ok L)) ∧
    (¬∃ L, Listing.ofText ("ARCH\nbig_endian false\ncode_space ram\nsp register:0x34:4\n\n" ++
      "ADDRESS_SPACES\nram processor 4\nregister register 4\ncst constant 8\n\nLISTING\n" ++
      "0x1000 4\n  register:0x0:4 = COPY const:0x5:4\n") = .ok (.ok L)) ∧
    (¬∃ L, Listing.ofText ("ARCH\nbig_endian false\ncode_space ram\nsp register:0x34:4\n\n" ++
      "ADDRESS_SPACES\nram processor 4\nregister register 4\n\nLISTING\n" ++
      "0x1000 4 unimplemented\n  RETURN register:0x38:4\n") = .ok (.ok L)) :=
  ⟨not_ok_of_result_isNone (by decide +kernel), not_ok_of_result_isNone (by decide +kernel),
    not_ok_of_result_isNone (by decide +kernel), not_ok_of_result_isNone (by decide +kernel)⟩

end ListingText

end MicroSsa
