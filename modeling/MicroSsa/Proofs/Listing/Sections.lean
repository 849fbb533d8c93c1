import MicroSsa.Proofs.Listing.Reading
import Mathlib.Data.List.Induction
/-!
# Sections and the architecture of a listing

A listing text is cut into **blocks** (`IsBlocks`): each block is a line that opens it and the
lines after it that open none. The kept lines of a text (neither blank nor `#` comments) cut into
blocks opened by header lines exactly when the first kept line is a header
(`exists_isBlocks_iff`), and then the section that the reader files under a header holds the
lines of all the blocks with that header, in order (`sections_lookup`): a section given in
several places is one.

The `ARCH` lines are `key value`, split at the first space of the trimmed line, and a later line
for a key wins (`archEntries_find?`). From these come the byte order, the table of the declared
spaces, the code space, and the link register (`result_endianOf`, `result_spaceTable`,
`result_codeSpaceOf`, `result_linkRegister`).
-/

namespace MicroSsa

namespace ListingText

/-! ## Blocks -/

/-- `bs` cuts `xs` into blocks: each block is an element that opens it and the elements after it
that open none, and the blocks in order give back `xs`. -/
structure IsBlocks {α : Type} (opens : α → Bool) (xs : List α) (bs : List (α × List α)) :
    Prop where
  flatten_eq : xs = bs.flatMap fun b => b.1 :: b.2
  head_opens : ∀ b ∈ bs, opens b.1 = true
  body_closed : ∀ b ∈ bs, ∀ x ∈ b.2, opens x = false

section blocks

variable {α : Type} (opens : α → Bool)

/-- Every list is a run of elements that open no block, followed by blocks. -/
theorem exists_closed_then_blocks (xs : List α) :
    ∃ pre bs, (∀ x ∈ pre, opens x = false) ∧ IsBlocks opens (bs.flatMap fun b => b.1 :: b.2) bs ∧
      xs = pre ++ bs.flatMap fun b => b.1 :: b.2 := by
  induction xs with
  | nil => exact ⟨[], [], by simp, ⟨rfl, by simp, by simp⟩, rfl⟩
  | cons x xs ih =>
    obtain ⟨pre, bs, hpre, hbs, rfl⟩ := ih
    cases hx : opens x with
    | true =>
      -- `x` opens a block that takes the closed run after it as its body
      refine ⟨[], (x, pre) :: bs, by simp, ⟨rfl, fun b hb => ?_, fun b hb => ?_⟩, by simp⟩
      · rcases List.mem_cons.mp hb with rfl | hb
        exacts [hx, hbs.head_opens b hb]
      · rcases List.mem_cons.mp hb with rfl | hb
        exacts [hpre, hbs.body_closed b hb]
    | false => exact ⟨x :: pre, bs, by simpa [hx] using hpre, hbs, rfl⟩

/-- A list cuts into blocks exactly when its first element, if any, opens one. -/
theorem exists_isBlocks_iff (xs : List α) :
    (∃ bs, IsBlocks opens xs bs) ↔ ∀ x ∈ xs.head?, opens x = true := by
  constructor
  · rintro ⟨bs, hbs⟩ x hx
    rw [hbs.flatten_eq] at hx
    cases bs with
    | nil => simp at hx
    | cons b bs =>
      simp only [List.flatMap_cons, List.cons_append, List.head?_cons, Option.mem_def,
        Option.some.injEq] at hx
      exact hx ▸ hbs.head_opens b (by simp)
  · intro h
    obtain ⟨pre, bs, hpre, hbs, heq⟩ := exists_closed_then_blocks opens xs
    cases pre with
    | nil => exact ⟨bs, heq ▸ hbs⟩
    | cons y pre =>
      have hy := h y (by simp [heq])
      simp [hpre y (by simp)] at hy

end blocks

/-! ## Sections -/

/-- A line that opens a section: exactly the name of one. -/
def isHeader (l : List Char) : Bool := headers.contains (String.ofList l)

/-- The numbered lines of a text that are not skipped. -/
def keptLines (text : String) : List (Nat × List Char) :=
  (numberedLines text).filter fun nl => !skipped nl.2

/-- A block of numbered lines: the line that opens it and the lines after it. -/
abbrev LineBlock := (Nat × List Char) × List (Nat × List Char)

/-- Blocks of numbered lines, such as the sections of a text, each opened by its header line. -/
abbrev SectionBlocks := List LineBlock

/-- Whether some block has header `h`. -/
def hasBlock (bs : SectionBlocks) (h : String) : Bool :=
  bs.any fun b => String.ofList b.1.2 == h

/-- The lines of the blocks with header `h`, in order. -/
def linesUnder (bs : SectionBlocks) (h : String) : List (Nat × List Char) :=
  (bs.filter fun b => String.ofList b.1.2 == h).flatMap (·.2)

/-- The lines the reader has filed under a header. -/
def Sections.lookup (ss : Sections) (h : String) : Option (List (Nat × List Char)) :=
  (ss.find? (·.1 == h)).map (·.2)

@[simp] theorem hasBlock_nil (h : String) : hasBlock [] h = false := rfl

@[simp] theorem linesUnder_nil (h : String) : linesUnder [] h = [] := rfl

theorem hasBlock_cons (b : LineBlock)
    (bs : SectionBlocks) (h : String) :
    hasBlock (b :: bs) h = (String.ofList b.1.2 == h || hasBlock bs h) := rfl

theorem linesUnder_cons (b : LineBlock)
    (bs : SectionBlocks) (h : String) :
    linesUnder (b :: bs) h =
      (if String.ofList b.1.2 = h then b.2 else []) ++ linesUnder bs h := by
  unfold linesUnder
  by_cases hb : String.ofList b.1.2 = h <;> simp [hb]

theorem linesUnder_eq_nil {bs : SectionBlocks} {h : String} (hh : hasBlock bs h = false) :
    linesUnder bs h = [] := by
  have hf : (bs.filter fun b => String.ofList b.1.2 == h) = [] := by
    rw [List.filter_eq_nil_iff]
    intro b hb hbh
    have : hasBlock bs h = true := List.any_eq_true.mpr ⟨b, hb, hbh⟩
    simp [this] at hh
  simp [linesUnder, hf]

/-- Changing the values of a keyed list, but not its keys, changes what a key finds in the same
way. -/
theorem find?_map_keys {κ ν : Type} [BEq κ] (l : List (κ × ν)) (f : κ × ν → κ × ν)
    (hf : ∀ e, (f e).1 = e.1) (k : κ) :
    (l.map f).find? (·.1 == k) = (l.find? (·.1 == k)).map f := by
  have hkey : ((·.1 == k) ∘ f) = (·.1 == k) := funext fun e => by simp [hf]
  rw [List.find?_map, hkey]

/-- Filing a line under `h'` extends the section `h'`, creating it if needed, and leaves every
other section as it was. -/
theorem lookup_addLine (ss : Sections) (h' h : String) (l : Option (Nat × List Char)) :
    (addLine ss h' l).lookup h =
      if h' = h then some ((ss.lookup h).getD [] ++ l.toList) else ss.lookup h := by
  unfold addLine Sections.lookup
  split
  · next hany =>
    -- the section exists: it is extended in place, and no key moves
    rw [find?_map_keys]
    · cases hf : ss.find? (·.1 == h) with
      | none =>
        by_cases hh : h' = h
        · subst hh
          obtain ⟨e, he, hek⟩ := List.any_eq_true.mp hany
          exact absurd hek (List.find?_eq_none.mp hf e he)
        · simp [hh]
      | some e =>
        obtain ⟨k, ls⟩ := e
        have hk : k = h := by simpa using List.find?_some hf
        subst hk
        by_cases hh : h' = k
        · subst hh
          simp
        · simp [hh, Ne.symm hh]
    · intro e
      obtain ⟨k, ls⟩ := e
      dsimp only
      split <;> rfl
  · next hany =>
    -- the section is new: it goes at the end
    rw [List.find?_append]
    by_cases hh : h' = h
    · subst hh
      have hnone : ss.find? (·.1 == h') = none := by
        rw [List.find?_eq_none]
        intro e he hek
        exact hany (List.any_eq_true.mpr ⟨e, he, hek⟩)
      simp [hnone]
    · cases ss.find? (·.1 == h) <;> simp [hh]

/-- A skipped line is not read; so the lines not skipped are read as if they stood alone. -/
theorem foldlM_sectionLine_kept (text : String) (acc : Sections × Option String) :
    (numberedLines text).foldlM (fun acc nl => (sectionLine acc nl).result) acc =
      (keptLines text).foldlM (fun acc nl => (sectionLine acc nl).result) acc := by
  unfold keptLines
  rw [List.foldlM_filter]
  congr
  funext acc nl
  by_cases hs : skipped nl.2 <;> simp [hs, sectionLine]

/-- Inside section `name`, each kept line that is no header is filed under `name`. -/
theorem foldlM_sectionLine_body (name : String) (body : List (Nat × List Char))
    (hkept : ∀ x ∈ body, skipped x.2 = false) (hbody : ∀ x ∈ body, isHeader x.2 = false)
    (ss : Sections) (hname : ss.lookup name ≠ none) :
    ∃ ss', body.foldlM (fun acc nl => (sectionLine acc nl).result) (ss, some name) =
        some (ss', some name) ∧
      ∀ h, ss'.lookup h = if name = h then some ((ss.lookup h).getD [] ++ body)
        else ss.lookup h := by
  induction body generalizing ss with
  | nil =>
    refine ⟨ss, rfl, fun h => ?_⟩
    by_cases hh : name = h
    · subst hh
      obtain ⟨ls, hls⟩ := Option.ne_none_iff_exists'.mp hname
      simp [hls]
    · simp [hh]
  | cons x body ih =>
    have hx : (sectionLine (ss, some name) x).result = some (addLine ss name (some x), some name) := by
      have hs := hkept x (by simp)
      have hh : String.ofList x.2 ∉ headers := by simpa [isHeader] using hbody x (by simp)
      simp [sectionLine, hs, hh]
    obtain ⟨ss', hfold, hlook⟩ := ih (fun y hy => hkept y (by simp [hy]))
      (fun y hy => hbody y (by simp [hy])) (addLine ss name (some x)) (by simp [lookup_addLine])
    refine ⟨ss', by rw [List.foldlM_cons, hx, Option.bind_eq_bind, Option.bind_some, hfold],
      fun h => ?_⟩
    rw [hlook, lookup_addLine]
    by_cases hh : name = h <;> simp [hh]

/-- The lines of one block are filed under its header, whatever section came before. -/
theorem foldlM_sectionLine_block (hd : Nat × List Char) (body : List (Nat × List Char))
    (hhd : isHeader hd.2 = true) (hkept : ∀ x ∈ hd :: body, skipped x.2 = false)
    (hbody : ∀ x ∈ body, isHeader x.2 = false) (ss : Sections) (cur : Option String) :
    ∃ ss', (hd :: body).foldlM (fun acc nl => (sectionLine acc nl).result) (ss, cur) =
        some (ss', some (String.ofList hd.2)) ∧
      ∀ h, ss'.lookup h = if String.ofList hd.2 = h then some ((ss.lookup h).getD [] ++ body)
        else ss.lookup h := by
  have hhead : (sectionLine (ss, cur) hd).result =
      some (addLine ss (String.ofList hd.2) none, some (String.ofList hd.2)) := by
    have hs := hkept hd (by simp)
    simp only [isHeader] at hhd
    simp only [sectionLine, hs, hhd, Bool.false_eq_true, if_false, if_true, result_pure]
  obtain ⟨ss', hfold, hlook⟩ := foldlM_sectionLine_body (String.ofList hd.2) body
    (fun x hx => hkept x (by simp [hx])) hbody (addLine ss (String.ofList hd.2) none)
    (by simp [lookup_addLine])
  refine ⟨ss', by rw [List.foldlM_cons, hhead, Option.bind_eq_bind, Option.bind_some, hfold],
    fun h => ?_⟩
  rw [hlook, lookup_addLine]
  by_cases hh : String.ofList hd.2 = h <;> simp [hh]

/-- Filing the blocks in order: each section holds the lines of all blocks with its header. -/
theorem foldlM_sectionLine_blocks (bs : SectionBlocks)
    (hopen : ∀ b ∈ bs, isHeader b.1.2 = true) (hbody : ∀ b ∈ bs, ∀ x ∈ b.2, isHeader x.2 = false)
    (hkept : ∀ x ∈ bs.flatMap (fun b => b.1 :: b.2), skipped x.2 = false)
    (ss : Sections) (cur : Option String) :
    ∃ ss' cur', (bs.flatMap fun b => b.1 :: b.2).foldlM
        (fun acc nl => (sectionLine acc nl).result) (ss, cur) = some (ss', cur') ∧
      ∀ h, ss'.lookup h = if hasBlock bs h then some ((ss.lookup h).getD [] ++ linesUnder bs h)
        else ss.lookup h := by
  induction bs generalizing ss cur with
  | nil => exact ⟨ss, cur, rfl, fun h => by simp⟩
  | cons b bs ih =>
    obtain ⟨ss₁, hb, hlook₁⟩ := foldlM_sectionLine_block b.1 b.2 (hopen b (by simp))
      (fun x hx => hkept x (List.mem_flatMap.mpr ⟨b, by simp, hx⟩)) (hbody b (by simp)) ss cur
    obtain ⟨ss', cur', hrest, hlook'⟩ := ih (fun b' hb' => hopen b' (by simp [hb']))
      (fun b' hb' => hbody b' (by simp [hb']))
      (fun x hx => hkept x (by rw [List.flatMap_cons]; exact List.mem_append_right _ hx)) ss₁ _
    refine ⟨ss', cur', ?_, fun h => ?_⟩
    · rw [List.flatMap_cons, List.foldlM_append, hb, Option.bind_eq_bind, Option.bind_some, hrest]
    · rw [hlook', hlook₁, hasBlock_cons, linesUnder_cons]
      by_cases hh : String.ofList b.1.2 = h <;> cases hbs : hasBlock bs h <;>
        simp [hh, hbs, linesUnder_eq_nil]

theorem not_skipped_of_mem_keptLines {text : String} {nl : Nat × List Char}
    (h : nl ∈ keptLines text) : skipped nl.2 = false := by
  unfold keptLines at h
  simpa using (List.mem_filter.mp h).2

/-- Splitting a text into sections succeeds exactly when its first kept line is a header; the
section filed under a header then holds the lines of every block with that header, for any cut
of the kept lines into blocks. -/
theorem sections_lookup (text : String) :
    ((sections text).result.isSome ↔ ∃ bs, IsBlocks (fun nl => isHeader nl.2) (keptLines text) bs) ∧
    ∀ ss bs, (sections text).result = some ss →
      IsBlocks (fun nl => isHeader nl.2) (keptLines text) bs →
      ∀ h, ss.lookup h = if hasBlock bs h then some (linesUnder bs h) else none := by
  have hsec : (sections text).result =
      ((keptLines text).foldlM (fun acc nl => (sectionLine acc nl).result) ([], none)).map (·.1) := by
    rw [sections, result_map, result_foldlM, foldlM_sectionLine_kept]
  have hblocks : ∀ bs, IsBlocks (fun nl => isHeader nl.2) (keptLines text) bs →
      ∃ ss' cur', (keptLines text).foldlM (fun acc nl => (sectionLine acc nl).result) ([], none) =
        some (ss', cur') ∧ ∀ h, ss'.lookup h = if hasBlock bs h then some (linesUnder bs h) else none := by
    intro bs hbs
    obtain ⟨ss', cur', hfold, hlook⟩ := foldlM_sectionLine_blocks bs hbs.head_opens
      hbs.body_closed (fun x hx => not_skipped_of_mem_keptLines (hbs.flatten_eq ▸ hx)) [] none
    refine ⟨ss', cur', hbs.flatten_eq ▸ hfold, fun h => ?_⟩
    rw [hlook h]
    simp [Sections.lookup]
  refine ⟨⟨fun h => ?_, fun h => ?_⟩, fun ss bs hss hbs h => ?_⟩
  · -- a first kept line that is no header stops the reading
    rw [exists_isBlocks_iff]
    intro x hx
    cases hk : keptLines text with
    | nil => simp [hk] at hx
    | cons y ys =>
      simp only [hk, List.head?_cons, Option.mem_def, Option.some.injEq] at hx
      subst hx
      have hmem : y ∈ keptLines text := by
        rw [hk]
        exact List.mem_cons_self
      have hy := not_skipped_of_mem_keptLines hmem
      by_contra hno
      have hno' : String.ofList y.2 ∉ headers := by simpa [isHeader] using hno
      rw [hsec, hk, List.foldlM_cons] at h
      simp [sectionLine, hy, hno'] at h
  · obtain ⟨bs, hbs⟩ := h
    obtain ⟨ss', cur', hfold, -⟩ := hblocks bs hbs
    simp [hsec, hfold]
  · obtain ⟨ss', cur', hfold, hlook⟩ := hblocks bs hbs
    rw [hsec, hfold] at hss
    simp only [Option.map_some, Option.some.injEq] at hss
    exact hss ▸ hlook h

@[simp] theorem result_section? (ss : Sections) (h : String) :
    (section? ss h).result = ss.lookup h := by
  unfold section? Sections.lookup
  cases ss.find? (·.1 == h) <;> rfl

theorem optionalSection_eq (ss : Sections) (h : String) :
    optionalSection ss h = (ss.lookup h).getD [] := rfl

/-! ## `ARCH` keys -/

/-- The key, line and value of an `ARCH` line: the trimmed line split at its first space, the
value trimmed. -/
def archEntry (nl : Nat × List Char) : Option (String × Nat × List Char) :=
  (Text.splitOnceAt (Text.trim nl.2) ' ').map fun kv => (String.ofList kv.1, nl.1, Text.trim kv.2)

/-- The line and value of the last `ARCH` line with key `k`. -/
def archValue (ls : List (Nat × List Char)) (k : String) : Option (Nat × List Char) :=
  ((ls.filterMap archEntry).filter (·.1 == k)).getLast?.map (·.2)

/-- In a list of keyed entries where a new entry replaces those of its key, the entry found for
a key is the new one if it has that key, and the old one otherwise. -/
theorem find?_replace {κ ν : Type} [DecidableEq κ] (l : List (κ × ν)) (k' : κ) (v : ν)
    (k : κ) :
    ((l.filter (·.1 != k')) ++ [(k', v)]).find? (·.1 == k) =
      if k' = k then some (k', v) else l.find? (·.1 == k) := by
  rw [List.find?_append]
  by_cases hk : k' = k
  · -- every old entry of the key is gone
    subst hk
    have hnone : (l.filter (·.1 != k')).find? (·.1 == k') = none := by
      rw [List.find?_eq_none]
      intro e he hek
      have hne := (List.mem_filter.mp he).2
      simp_all
    simp [hnone]
  · -- entries of another key are not looked at
    have hsame : (l.filter (·.1 != k')).find? (·.1 == k) = l.find? (·.1 == k) := by
      rw [List.find?_filter]
      congr 1
      funext a
      by_cases ha : a.1 = k
      · simp [ha, Ne.symm hk]
      · simp [ha]
    rw [hsame]
    cases l.find? (·.1 == k) <;> simp [hk]

theorem result_archLine (acc : List (String × Nat × List Char)) (nl : Nat × List Char) :
    (archLine acc nl).result = (archEntry nl).map fun e => (acc.filter (·.1 != e.1)) ++ [e] := by
  unfold archLine archEntry
  cases Text.splitOnceAt (Text.trim nl.2) ' ' <;> rfl

/-- The `ARCH` lines are read when each is `key value`; the entry then found for a key is the
last line with that key. -/
theorem archEntries_find? (ls : List (Nat × List Char)) :
    ((archEntries ls).result.isSome ↔ ∀ nl ∈ ls, (archEntry nl).isSome) ∧
    ∀ props, (archEntries ls).result = some props →
      ∀ k, (props.find? (·.1 == k)).map (·.2) = archValue ls k := by
  unfold archEntries
  rw [result_foldlM]
  -- a later line decides, so the lines are taken from the last
  induction ls using List.reverseRecOn with
  | nil =>
    refine ⟨by simp, fun props h k => ?_⟩
    simp only [List.foldlM_nil, Option.pure_def, Option.some.injEq] at h
    subst h
    rfl
  | append_singleton ls x ih =>
    obtain ⟨ihsome, ihfind⟩ := ih
    rw [List.foldlM_append]
    cases hfold : ls.foldlM (fun b a => (archLine b a).result) [] with
    | none =>
      rw [hfold] at ihsome
      refine ⟨⟨fun h => by simp at h, fun hall => ?_⟩, fun props h => by simp at h⟩
      exact absurd (ihsome.mpr fun nl hnl => hall nl (List.mem_append_left _ hnl)) (by simp)
    | some props₀ =>
      rw [hfold] at ihsome
      have hfind₀ := ihfind props₀ hfold
      cases he : archEntry x with
      | none =>
        simp only [Option.bind_eq_bind, Option.bind_some, List.foldlM_cons, result_archLine, he,
          Option.map_none, Option.bind_none, Option.isSome_none, Bool.false_eq_true, false_iff,
          reduceCtorEq, false_implies, implies_true, and_true]
        intro hall
        simpa [he] using hall x (by simp)
      | some e =>
        obtain ⟨key, v⟩ := e
        simp only [Option.bind_eq_bind, Option.bind_some, List.foldlM_cons, result_archLine, he,
          Option.map_some, List.foldlM_nil, Option.pure_def, Option.isSome_some, true_iff,
          Option.some.injEq, forall_eq']
        refine ⟨fun nl hnl => ?_, fun k => ?_⟩
        · rcases List.mem_append.mp hnl with hnl | hnl
          · exact ihsome.mp rfl nl hnl
          · simp only [List.mem_singleton] at hnl
            simp [hnl, he]
        · rw [find?_replace, archValue, List.filterMap_append, List.filter_append,
            List.getLast?_append]
          by_cases hk : key = k
          · simp [he, hk]
          · simp [he, hk, hfind₀ k, archValue]

@[simp] theorem result_archKey (props : List (String × Nat × List Char)) (k : String) :
    (archKey props k).result = (props.find? (·.1 == k)).map (·.2) := by
  unfold archKey
  cases props.find? (·.1 == k) <;> rfl

/-! ## The architecture -/

/-- The byte order a `big_endian` value names. -/
def endianNamed (v : List Char) : Option Endian :=
  if v == "false".toList then some .little else if v == "true".toList then some .big else none

theorem result_endianOf (props : List (String × Nat × List Char)) :
    (endianOf props).result =
      ((props.find? (·.1 == "big_endian")).map (·.2)).bind fun nv => endianNamed nv.2 := by
  unfold endianOf endianNamed
  simp only [result_bind, result_archKey]
  cases (props.find? (·.1 == "big_endian")).map (·.2) with
  | none => rfl
  | some nv =>
    simp only [Option.bind_some]
    split_ifs <;> rfl

theorem result_spaceTable (e : Endian) (ls : List (Nat × List Char)) (t : SpaceTable) :
    (spaceTable e ls).result = some t ↔
      ∃ declared, List.Forall₂ (fun nl s => Declares e nl.2 s) ls declared ∧
        SpaceTable.build declared.toArray = .ok t := by
  unfold spaceTable
  simp only [result_bind, Option.bind_eq_some_iff, result_mapM, mapM_eq_some_iff,
    result_spaceLine]
  refine exists_congr fun declared => and_congr_right fun _ => ?_
  cases SpaceTable.build declared.toArray <;> simp

theorem result_codeSpaceOf (props : List (String × Nat × List Char)) (t : SpaceTable) :
    (codeSpaceOf props t).result =
      ((props.find? (·.1 == "code_space")).map (·.2)).bind
        fun nv => t.byName? (String.ofList nv.2) := by
  unfold codeSpaceOf
  simp only [result_bind, result_archKey]
  cases (props.find? (·.1 == "code_space")).map (·.2) with
  | none => rfl
  | some nv =>
    simp only [Option.bind_some]
    cases t.byName? (String.ofList nv.2) <;> rfl

theorem result_linkRegister (props : List (String × Nat × List Char)) (t : SpaceTable) :
    (linkRegister props t).result =
      ((props.find? (·.1 == "lr")).map (·.2)).elim (some none)
        fun nv => (varnode nv.1 t nv.2).result.map some := by
  unfold linkRegister
  cases props.find? (·.1 == "lr") <;> simp

end ListingText

end MicroSsa
