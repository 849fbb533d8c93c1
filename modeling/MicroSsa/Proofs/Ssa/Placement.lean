import MicroSsa.Proofs.Ssa.Queue
import MicroSsa.Proofs.Ssa.Merge
/-!
# Merges go on the iterated dominance frontier

The **iterated dominance frontier** of a set `W` of blocks (`BlockGraph.InIdf`) is the least
set `X` that holds the frontier of every block of `W` and of `X`, computed over the frontier
lists the dominator analysis stored on the blocks (`InIdf.closed`, `InIdf.least`).

`Function.placeMerges` takes blocks out of a depth queue, deepest first, and places a merge on
each reached block of their frontiers that has none yet, queueing it once. `placeMerges_spec`
says that it succeeds and places exactly one merge for the variable at the top of each block of
the iterated frontier of the writers (`KeyPlaced`), whatever order the queue hands the blocks
back in. The loop keeps an invariant (`PlaceState`): the blocks given a merge lie in the
frontier, a block is queued once, and every queued block is either still in the queue or has
all its reached frontier blocks merged. A block queued once and a queue entry taken out on
each pass bound the passes by the number of blocks, so the fuel the loop is given suffices.
-/

namespace MicroSsa

namespace BlockGraph

variable {G : BlockGraph}

/-- A block of the graph reached from the entry. -/
def Live (G : BlockGraph) (b : Nat) : Prop := b < G.size ∧ (G.get b).flags.dead = false

/-- The frontier of a reached block holds reached blocks only. -/
def FrontiersLive (G : BlockGraph) : Prop :=
  ∀ x y, G.Live x → y ∈ (G.get x).frontier → G.Live y

/-- The iterated dominance frontier of the blocks `W`, over the stored frontier lists. -/
inductive InIdf (G : BlockGraph) (W : Nat → Prop) : Nat → Prop
  | frontier {w y : Nat} : W w → y ∈ (G.get w).frontier → InIdf G W y
  | iterate {x y : Nat} : InIdf G W x → y ∈ (G.get x).frontier → InIdf G W y

variable {W : Nat → Prop}

/-- The iterated frontier holds the frontier of `W` and of itself. -/
theorem InIdf.closed {x : Nat} (hx : W x ∨ G.InIdf W x) {y : Nat} (hy : y ∈ (G.get x).frontier) :
    G.InIdf W y := by
  rcases hx with hx | hx
  · exact .frontier hx hy
  · exact .iterate hx hy

/-- The iterated frontier lies in every set that holds the frontier of `W` and of itself. -/
theorem InIdf.least (X : Nat → Prop) (hX : ∀ x, W x ∨ X x → ∀ y ∈ (G.get x).frontier, X y)
    {y : Nat} (hy : G.InIdf W y) : X y := by
  induction hy with
  | frontier hw hy => exact hX _ (Or.inl hw) _ hy
  | iterate _ hy ih => exact hX _ (Or.inr ih) _ hy

/-- From reached blocks, the iterated frontier holds reached blocks only. -/
theorem InIdf.live (hF : G.FrontiersLive) (hW : ∀ w, W w → G.Live w) {y : Nat}
    (hy : G.InIdf W y) : G.Live y :=
  InIdf.least (G.Live) (fun x hx z hz => hF x z (hx.elim (hW x) id) hz) hy

end BlockGraph

namespace Function

variable {f₀ f g : Function}

/-! ## Merges of one variable -/

/-- `f` is `f₀` with a merge of `key` placed at the top of each block of `bs`, in that order,
right after the merges `f₀` has there: the `i`-th is operation `f₀.store.ops.size + i`. -/
structure KeyPlaced (f₀ f : Function) (key : Location) (bs : List Nat) : Prop where
  sound : f.store.Sound
  blocks : f.BlocksHold
  ext : Extends f₀ f
  ops_size : f.store.ops.size = f₀.store.ops.size + bs.length
  nodup : bs.Nodup
  lt_size : ∀ b ∈ bs, b < f₀.graph.size
  merge : ∀ i (h : i < bs.length), f.IsMerge key bs[i] (f₀.store.ops.size + i)
  plain : ∀ i, i < bs.length → f.OutputPlain (f₀.store.ops.size + i)
  ops : ∀ b, (f.graph.get b).ops = if b ∈ bs then
    (f₀.graph.get b).ops.insertIdxIfInBounds (f₀.leadingMerges b) (f₀.store.ops.size + bs.idxOf b)
    else (f₀.graph.get b).ops

theorem KeyPlaced.start (hS : f₀.store.Sound) (h₀ : f₀.BlocksHold) (key : Location) :
    KeyPlaced f₀ f₀ key [] :=
  ⟨hS, h₀, Extends.refl f₀, rfl, List.nodup_nil, fun _ h => absurd h List.not_mem_nil,
    fun _ h => absurd h (Nat.not_lt_zero _), fun _ h => absurd h (Nat.not_lt_zero _),
    fun b => by simp⟩

/-- One more merge, at a block that has none of this variable yet. -/
theorem KeyPlaced.insertMerge {key : Location} {bs : List Nat} (h : KeyPlaced f₀ f key bs)
    (h₀ : f₀.BlocksHold) (hkey : key.addr.space ≠ f₀.store.constSpace) {y : Nat} (hy : y ∉ bs)
    (hlt : y < f₀.graph.size) :
    ∃ g, f.insertMerge key y = .ok g ∧ KeyPlaced f₀ g key (bs ++ [y]) := by
  have hopsy : (f.graph.get y).ops = (f₀.graph.get y).ops := by rw [h.ops, if_neg hy]
  obtain ⟨g, hrun, hSg, hext, hops, -, hmerge, hplain, hgraph⟩ :=
    insertMerge_spec h.sound (h.ext.constSpace ▸ hkey) fun o ho => h.blocks.lt_size ho
  -- the merges at the top of `y` are still those of `f₀`
  have hlead : f.leadingMerges y = f₀.leadingMerges y := by
    refine leadingMerges_congr hopsy fun o ho => ?_
    obtain ⟨x, hx, -⟩ := h₀.member ho
    obtain ⟨x', hx', hu⟩ := h.ext.op_some hx
    rw [hx, hx']
    simpa using congrArg Op.opcode hu
  have hylt : y < f.graph.size := h.ext.size ▸ hlt
  refine ⟨g, hrun, ⟨hSg, ?_, h.ext.trans hext, ?_, ?_, ?_, fun i hi => ?_, fun i hi => ?_,
    fun b => ?_⟩⟩
  · obtain ⟨x, hx, -, hp, hd, -⟩ := hmerge
    exact h.blocks.insert hext hylt (leadingMerges_le f y) hops ⟨x, hx, hp, hd⟩ hgraph
  · rw [hops, h.ops_size, List.length_append, List.length_singleton, Nat.add_assoc]
  · exact List.nodup_append.mpr ⟨h.nodup, List.nodup_singleton y,
      fun a ha b hb => by rw [List.mem_singleton] at hb; subst hb; exact fun hab => hy (hab ▸ ha)⟩
  · intro b hb
    rcases List.mem_append.mp hb with hb | hb
    · exact h.lt_size b hb
    · rw [List.mem_singleton.mp hb]
      exact hlt
  · rw [List.length_append, List.length_singleton] at hi
    by_cases hib : i < bs.length
    · rw [List.getElem_append_left hib]
      exact (h.merge i hib).mono hext
    · obtain rfl : i = bs.length := by omega
      simp only [List.getElem_concat_length]
      rw [← h.ops_size]
      exact hmerge
  · rw [List.length_append, List.length_singleton] at hi
    by_cases hib : i < bs.length
    · exact (h.plain i hib).mono (by rw [h.ops_size]; omega) hext
    · obtain rfl : i = bs.length := by omega
      rw [← h.ops_size]
      exact hplain
  · rw [hgraph, BlockGraph.get_modify]
    by_cases hb : y = b
    · subst hb
      rw [if_pos ⟨rfl, hylt⟩, if_pos (List.mem_append_right bs (List.mem_singleton_self y)),
        List.idxOf_append_of_notMem hy, List.idxOf_cons_self, hopsy, hlead, h.ops_size]
      rfl
    · rw [if_neg (fun hb' => hb hb'.1), h.ops b]
      have hmem : b ∈ bs ++ [y] ↔ b ∈ bs := by
        simp only [List.mem_append, List.mem_singleton]
        exact ⟨fun h' => h'.resolve_right (Ne.symm hb), Or.inl⟩
      by_cases hbs : b ∈ bs
      · rw [if_pos hbs, if_pos (hmem.mpr hbs), List.idxOf_append_of_mem hbs]
      · rw [if_neg hbs, if_neg (fun h' => hbs (hmem.mp h'))]

/-! ## The placement loop -/

/-- One frontier block looked at by the placement loop: a reached block without a merge yet
gets one, and is queued unless it was queued before. -/
def placeStep (key : Location) (p : Placement) (fb : Nat) : Except Fault Placement :=
  if (p.func.graph.get fb).flags.dead || p.merged.contains fb then pure p
  else do
    let func ← p.func.insertMerge key fb
    let p := { p with func := func, merged := fb :: p.merged }
    if p.queued.contains fb then pure p
    else pure { p with queued := fb :: p.queued
                       queue := p.queue.insert fb (p.func.graph.get fb).depth }

/-- The blocks whose reached frontier blocks all have a merge. -/
def Closed (f₀ : Function) (merged : List Nat) (x : Nat) : Prop :=
  ∀ y ∈ (f₀.graph.get x).frontier, f₀.graph.Live y → y ∈ merged

/-- What placing the merges of `key` from `f₀`, with writers `ws`, keeps: the merges placed so
far, on blocks of the iterated frontier; each block queued once, the writers and the merged
blocks; a well-formed queue holding queued blocks only. -/
structure PlaceState (f₀ : Function) (key : Location) (ws : List Nat) (p : Placement) : Prop where
  placed : KeyPlaced f₀ p.func key p.merged.reverse
  idf : ∀ b ∈ p.merged, f₀.graph.InIdf (· ∈ ws) b
  queued : ∀ b, b ∈ p.queued ↔ b ∈ ws ∨ b ∈ p.merged
  queued_nodup : p.queued.Nodup
  wf : p.queue.Wf
  in_queue : ∀ x, 0 < p.queue.count x → x ∈ p.queued

/-- The passes the loop may still need: one per queue entry, and one per block not queued yet. -/
def passes (f₀ : Function) (p : Placement) : Nat :=
  p.queue.entries + (f₀.graph.size - p.queued.length)

/-- From `p` to `p'` the loop only went forward: merges were added, queue entries only added,
every newly queued block is in the queue, and no pass was added. -/
structure Grows (f₀ : Function) (p p' : Placement) : Prop where
  merged : ∀ b ∈ p.merged, b ∈ p'.merged
  count : ∀ z, p.queue.count z ≤ p'.queue.count z
  queued : ∀ z ∈ p'.queued, z ∈ p.queued ∨ 0 < p'.queue.count z
  passes : passes f₀ p' ≤ passes f₀ p

theorem Grows.refl (f₀ : Function) (p : Placement) : Grows f₀ p p :=
  ⟨fun _ h => h, fun _ => le_refl _, fun _ h => Or.inl h, le_refl _⟩

theorem Grows.trans {p p' p'' : Placement} (h₁ : Grows f₀ p p') (h₂ : Grows f₀ p' p'') :
    Grows f₀ p p'' where
  merged b hb := h₂.merged b (h₁.merged b hb)
  count z := (h₁.count z).trans (h₂.count z)
  queued z hz := (h₂.queued z hz).elim (fun hz' => (h₁.queued z hz').imp id
    fun hc => Nat.lt_of_lt_of_le hc (h₂.count z)) Or.inr
  passes := h₂.passes.trans h₁.passes

section Loop

variable {key : Location} {ws : List Nat} {p : Placement}

theorem PlaceState.live (hF : f₀.graph.FrontiersLive) (hws : ∀ w ∈ ws, f₀.graph.Live w)
    (hst : PlaceState f₀ key ws p) {b : Nat} (hb : b ∈ p.queued) :
    f₀.graph.Live b := by
  rcases (hst.queued b).mp hb with hb | hb
  · exact hws b hb
  · exact BlockGraph.InIdf.live hF (fun w hw => hws w hw) (hst.idf b hb)

theorem PlaceState.queued_length (hF : f₀.graph.FrontiersLive) (hws : ∀ w ∈ ws, f₀.graph.Live w)
    (hst : PlaceState f₀ key ws p) :
    p.queued.length ≤ f₀.graph.size := by
  have hsub : p.queued.toFinset ⊆ Finset.range f₀.graph.size := fun b hb =>
    Finset.mem_range.mpr (hst.live hF hws (List.mem_toFinset.mp hb)).1
  calc p.queued.length = p.queued.toFinset.card := (List.toFinset_card_of_nodup hst.queued_nodup).symm
    _ ≤ (Finset.range f₀.graph.size).card := Finset.card_le_card hsub
    _ = f₀.graph.size := Finset.card_range _

/-- One frontier block of a queued block: the state is kept, the loop goes forward, and the block,
if reached, has a merge afterwards. -/
theorem placeStep_spec (h₀ : f₀.BlocksHold) (hkey : key.addr.space ≠ f₀.store.constSpace)
    (hF : f₀.graph.FrontiersLive) (hws : ∀ w ∈ ws, f₀.graph.Live w) (hst : PlaceState f₀ key ws p) {x fb : Nat} (hx : x ∈ p.queued)
    (hfb : fb ∈ (f₀.graph.get x).frontier) :
    ∃ p', placeStep key p fb = .ok p' ∧ PlaceState f₀ key ws p' ∧ Grows f₀ p p' ∧
      fb ∈ p'.merged := by
  have hfbl : f₀.graph.Live fb := hF x fb (hst.live hF hws hx) hfb
  have hdead : (p.func.graph.get fb).flags.dead = false := by
    rw [hst.placed.ext.flags]
    exact hfbl.2
  unfold placeStep
  by_cases hm : fb ∈ p.merged
  · rw [if_pos (by simp [hdead, hm])]
    exact ⟨p, rfl, hst, Grows.refl f₀ p, hm⟩
  rw [if_neg (by simp [hdead, hm])]
  obtain ⟨g, hrun, hkp⟩ := hst.placed.insertMerge h₀ hkey (y := fb) (by simpa using hm) hfbl.1
  have hkp' : KeyPlaced f₀ g key (fb :: p.merged).reverse := by
    rw [List.reverse_cons]
    exact hkp
  -- the block lies in the iterated frontier, since the queued block does or is a writer
  have hidf : f₀.graph.InIdf (· ∈ ws) fb :=
    BlockGraph.InIdf.closed (((hst.queued x).mp hx).imp id (hst.idf x)) hfb
  have hidf' : ∀ b ∈ fb :: p.merged, f₀.graph.InIdf (· ∈ ws) b := by
    intro b hb
    rcases List.mem_cons.mp hb with rfl | hb
    · exact hidf
    · exact hst.idf b hb
  by_cases hq : fb ∈ p.queued
  · refine ⟨{ p with func := g, merged := fb :: p.merged }, ?_, ⟨hkp', hidf', fun b => ?_,
      hst.queued_nodup, hst.wf, hst.in_queue⟩, ⟨fun b hb => List.mem_cons_of_mem fb hb,
      fun z => le_refl _, fun z hz => Or.inl hz, le_refl _⟩, List.mem_cons_self⟩
    · simp [hrun, hq, bind, Except.bind, pure, Except.pure]
    · rw [hst.queued b, List.mem_cons]
      constructor
      · exact fun h => h.imp id Or.inr
      · rintro (h | rfl | h)
        · exact Or.inl h
        · exact (hst.queued b).mp hq
        · exact Or.inr h
  · let q' := p.queue.insert fb (g.graph.get fb).depth
    have hcount : ∀ z, q'.count z = p.queue.count z + if z = fb then 1 else 0 :=
      DepthQueue.count_insert p.queue fb _
    have hst' : PlaceState f₀ key ws
        { p with func := g, merged := fb :: p.merged, queued := fb :: p.queued, queue := q' } := by
      refine ⟨hkp', hidf', fun b => ?_, List.nodup_cons.mpr ⟨hq, hst.queued_nodup⟩,
        hst.wf.insert fb _, fun z hz => ?_⟩
      · simp only [List.mem_cons, hst.queued b]
        constructor
        · rintro (rfl | h)
          · exact Or.inr (Or.inl rfl)
          · exact h.imp id Or.inr
        · rintro (h | rfl | h)
          · exact Or.inr (Or.inl h)
          · exact Or.inl rfl
          · exact Or.inr (Or.inr h)
      · rw [hcount] at hz
        by_cases hzf : z = fb
        · exact hzf ▸ List.mem_cons_self
        · rw [if_neg hzf, Nat.add_zero] at hz
          exact List.mem_cons_of_mem fb (hst.in_queue z hz)
    have hlen := hst'.queued_length hF hws
    simp only [List.length_cons] at hlen
    refine ⟨_, ?_, hst', ⟨fun b hb => List.mem_cons_of_mem fb hb, fun z => ?_, fun z hz => ?_, ?_⟩,
      List.mem_cons_self⟩
    · simp [hrun, hq, bind, Except.bind, pure, Except.pure, q']
    · rw [hcount]
      exact Nat.le_add_right _ _
    · rcases List.mem_cons.mp hz with rfl | hz
      · right
        rw [hcount, if_pos rfl]
        exact Nat.succ_pos _
      · exact Or.inl hz
    · simp only [passes, DepthQueue.entries_insert, List.length_cons, q']
      omega

theorem PlaceState.queued_mono {p p' : Placement} (hst : PlaceState f₀ key ws p)
    (hst' : PlaceState f₀ key ws p') (hg : Grows f₀ p p') {b : Nat} (hb : b ∈ p.queued) :
    b ∈ p'.queued :=
  (hst'.queued b).mpr (((hst.queued b).mp hb).imp id (hg.merged b))

/-- The frontier of a queued block, looked at block by block: afterwards every block of it has a
merge. -/
theorem frontierFold_spec (h₀ : f₀.BlocksHold) (hkey : key.addr.space ≠ f₀.store.constSpace)
    (hF : f₀.graph.FrontiersLive) (hws : ∀ w ∈ ws, f₀.graph.Live w) {x : Nat} :
    ∀ (l : List Nat) (p : Placement), PlaceState f₀ key ws p → x ∈ p.queued →
      (∀ fb ∈ l, fb ∈ (f₀.graph.get x).frontier) →
      ∃ p', l.foldlM (placeStep key) p = .ok p' ∧ PlaceState f₀ key ws p' ∧ Grows f₀ p p' ∧
        ∀ fb ∈ l, fb ∈ p'.merged
  | [], p, hst, _, _ => ⟨p, rfl, hst, Grows.refl f₀ p, fun _ h => absurd h List.not_mem_nil⟩
  | fb :: l, p, hst, hx, hl => by
    obtain ⟨p₁, h₁, hst₁, hg₁, hm₁⟩ :=
      placeStep_spec h₀ hkey hF hws hst hx (hl fb List.mem_cons_self)
    obtain ⟨p₂, h₂, hst₂, hg₂, hm₂⟩ := frontierFold_spec h₀ hkey hF hws l p₁ hst₁
      (hst.queued_mono hst₁ hg₁ hx) fun fb' h => hl fb' (List.mem_cons_of_mem fb h)
    refine ⟨p₂, ?_, hst₂, hg₁.trans hg₂, fun fb' h => ?_⟩
    · rw [List.foldlM_cons, h₁]
      exact h₂
    · rcases List.mem_cons.mp h with rfl | h
      · exact hg₂.merged _ hm₁
      · exact hm₂ fb' h

/-- **The placement loop.** From a state where every queued block is in the queue or closed,
with more fuel than passes left, the loop ends in a state where every queued block is closed. -/
theorem placeLoop_spec (h₀ : f₀.BlocksHold) (hkey : key.addr.space ≠ f₀.store.constSpace)
    (hF : f₀.graph.FrontiersLive) (hws : ∀ w ∈ ws, f₀.graph.Live w) :
    ∀ (fuel : Nat) (p : Placement), PlaceState f₀ key ws p →
      (∀ x ∈ p.queued, 0 < p.queue.count x ∨ Closed f₀ p.merged x) → passes f₀ p < fuel →
      ∃ p', placeLoop key fuel p = .ok p' ∧ PlaceState f₀ key ws p' ∧
        ∀ x ∈ p'.queued, Closed f₀ p'.merged x
  | 0, _, _, _, hfuel => absurd hfuel (Nat.not_lt_zero _)
  | fuel + 1, p, hst, hdone, hfuel => by
    rw [placeLoop]
    rcases hex : p.queue.extract with ⟨xo, q⟩
    have hwf : q.Wf := hst.wf.extract hex
    cases xo with
    | none =>
      -- an empty queue: every queued block is closed
      have hzero := DepthQueue.count_of_extract_none hst.wf hex
      refine ⟨{ p with queue := q }, rfl, ⟨hst.placed, hst.idf, hst.queued, hst.queued_nodup, hwf,
        fun z hz => absurd hz (by rw [(hzero z).2]; exact Nat.lt_irrefl 0)⟩, fun z hz => ?_⟩
      exact (hdone z hz).resolve_left (by rw [(hzero z).1]; exact Nat.lt_irrefl 0)
    | some x =>
      have hcount := DepthQueue.count_extract hst.wf hex
      have hentries := DepthQueue.entries_extract hst.wf hex
      have hx : x ∈ p.queued := hst.in_queue x (by rw [hcount x, if_pos rfl]; omega)
      have hst₁ : PlaceState f₀ key ws { p with queue := q } :=
        ⟨hst.placed, hst.idf, hst.queued, hst.queued_nodup, hwf, fun z hz => hst.in_queue z
          (by simp only at hz; rw [hcount z]; omega)⟩
      -- every block of the extracted block's frontier gets a merge
      have hfr : (p.func.graph.get x).frontier = (f₀.graph.get x).frontier :=
        hst.placed.ext.frontier x
      obtain ⟨p₂, h₂, hst₂, hg₂, hm₂⟩ := frontierFold_spec h₀ hkey hF hws
        (p.func.graph.get x).frontier.toList { p with queue := q } hst₁ hx
        fun fb h => by rw [← hfr]; exact Array.mem_toList_iff.mp h
      have hdone₂ : ∀ z ∈ p₂.queued, 0 < p₂.queue.count z ∨ Closed f₀ p₂.merged z := by
        intro z hz
        rcases hg₂.queued z hz with hz | hz
        · by_cases hzx : z = x
          · subst hzx
            refine Or.inr fun y hy _ => hm₂ y ?_
            rw [Array.mem_toList_iff, hfr]
            exact hy
          · rcases hdone z hz with hc | hc
            · left
              have := hg₂.count z
              simp only [hcount z, if_neg hzx] at hc this
              omega
            · exact Or.inr fun y hy hl => hg₂.merged y (hc y hy hl)
        · exact Or.inl hz
      have hpasses : passes f₀ p₂ < fuel := by
        have := hg₂.passes
        simp only [passes] at this hfuel ⊢
        omega
      obtain ⟨p', h', hst', hclosed⟩ := placeLoop_spec h₀ hkey hF hws fuel p₂ hst₂ hdone₂ hpasses
      refine ⟨p', ?_, hst', hclosed⟩
      show (List.foldlM (placeStep key) { p with queue := q } (p.func.graph.get x).frontier.toList >>=
        fun p => placeLoop key fuel p) = _
      rw [h₂]
      exact h'

end Loop

/-- **Merges of one variable.** From a sound function whose block lists hold, whose reached
blocks have reached frontiers, for a variable outside the constant space and distinct reached
writers, `placeMerges` succeeds and places one merge of the variable at the top of each block of
the iterated dominance frontier of the writers, and on no other block. -/
theorem placeMerges_spec (hS : f.store.Sound) (h₀ : f.BlocksHold) {key : Location}
    (hkey : key.addr.space ≠ f.store.constSpace) (hF : f.graph.FrontiersLive) {ws : List Nat}
    (hws : ∀ w ∈ ws, f.graph.Live w) (hnd : ws.Nodup) (maxDepth : Nat) :
    ∃ g bs, f.placeMerges maxDepth key ws = .ok g ∧ KeyPlaced f g key bs ∧
      ∀ b, b ∈ bs ↔ f.graph.InIdf (· ∈ ws) b := by
  let q₀ := ws.foldl (fun q b => q.insert b (f.graph.get b).depth) (DepthQueue.reset maxDepth)
  have hcount : ∀ z, q₀.count z = ws.count z := fun z => by
    rw [DepthQueue.count_foldl_insert, DepthQueue.count_reset, Nat.zero_add]
  let p₀ : Placement := { func := f, queue := q₀, merged := [], queued := ws }
  have hst₀ : PlaceState f key ws p₀ := by
    refine ⟨KeyPlaced.start hS h₀ key, fun _ h => absurd h List.not_mem_nil, fun b => ?_, hnd,
      (DepthQueue.wf_reset maxDepth).foldl_insert _ ws, fun z hz => ?_⟩
    · simp [p₀]
    · simp only [p₀, hcount] at hz ⊢
      exact List.count_pos_iff.mp hz
  have hdone₀ : ∀ x ∈ p₀.queued, 0 < p₀.queue.count x ∨ Closed f p₀.merged x := fun x hx =>
    Or.inl (by simp only [p₀, hcount]; exact List.count_pos_iff.mpr hx)
  have hpasses : passes f p₀ < f.graph.size + 2 := by
    have hlen := hst₀.queued_length hF hws
    simp only [passes, p₀, q₀, DepthQueue.entries_foldl_insert, DepthQueue.entries_reset] at hlen ⊢
    omega
  obtain ⟨p', hloop, hst', hclosed⟩ := placeLoop_spec h₀ hkey hF hws _ p₀ hst₀ hdone₀ hpasses
  refine ⟨p'.func, p'.merged.reverse, ?_, hst'.placed, fun b => ?_⟩
  · simp only [placeMerges, bind, Except.bind, pure, Except.pure]
    erw [hloop]
  · rw [List.mem_reverse]
    refine ⟨hst'.idf b, BlockGraph.InIdf.least (· ∈ p'.merged) fun x hx y hy => ?_⟩
    have hxq : x ∈ p'.queued := (hst'.queued x).mpr hx
    exact hclosed x hxq y hy (hF x y (hst'.live hF hws hxq) hy)

/-! ## Merges of all variables -/

/-- The variable of a merge: the location it writes. -/
def mergeKey (f : Function) (o : Nat) : Option Location :=
  (f.store.op? o).bind fun x =>
    if x.opcode = .multiEqual then (x.output.bind f.store.vn?).map (·.loc) else none

/-- The merges of variable `k` that block `b` lists. -/
def mergesOf (f : Function) (k : Location) (b : Nat) : List Nat :=
  (f.graph.get b).ops.toList.filter fun o => f.mergeKey o = some k

/-- No operation is a merge yet. -/
def NoMerges (f : Function) : Prop :=
  ∀ o x, f.store.op? o = some x → x.opcode ≠ .multiEqual

theorem IsMerge.mergeKey {key : Location} {b m : Nat} (h : f.IsMerge key b m) :
    f.mergeKey m = some key := by
  obtain ⟨x, hx, hop, -, -, -, -, v, hv, hk⟩ := h
  simp only [Function.mergeKey, hx, Option.bind_some, hop, if_true, hv]
  simpa [Store.node, Option.map_map, Function.comp_def] using hk

/-- The operations `f₀` had are no merges in any extension of a function without merges. -/
theorem Extends.mergeKey_old (hext : Extends f₀ f) (h₀ : NoMerges f₀) {o : Nat}
    (ho : o < f₀.store.ops.size) : f.mergeKey o = none := by
  have hg := hext.ops o ho
  cases hx : f₀.store.op? o with
  | none =>
    rw [hx, Option.map_none, Option.map_eq_none_iff] at hg
    simp [Function.mergeKey, hg]
  | some x =>
    rw [hx] at hg
    obtain ⟨x', hx', hu⟩ := Option.map_eq_some_iff.mp hg
    have hop : x'.opcode = x.opcode := by simpa using congrArg Op.opcode hu
    simp [Function.mergeKey, hx', hop, h₀ o x hx]

theorem Extends.live_iff (hext : Extends f₀ f) (b : Nat) : f.graph.Live b ↔ f₀.graph.Live b := by
  simp only [BlockGraph.Live, hext.size, hext.flags]

theorem Extends.frontiersLive (hext : Extends f₀ f) (hF : f₀.graph.FrontiersLive) :
    f.graph.FrontiersLive := fun x y hx hy => by
  rw [hext.live_iff] at hx ⊢
  exact hF x y hx (hext.frontier x ▸ hy)

theorem Extends.inIdf_iff (hext : Extends f₀ f) {W : Nat → Prop} (b : Nat) :
    f.graph.InIdf W b ↔ f₀.graph.InIdf W b := by
  constructor
  · intro h
    induction h with
    | frontier hw hy => exact .frontier hw (hext.frontier _ ▸ hy)
    | iterate _ hy ih => exact .iterate ih (hext.frontier _ ▸ hy)
  · intro h
    induction h with
    | frontier hw hy => exact .frontier hw ((hext.frontier _).symm ▸ hy)
    | iterate _ hy ih => exact .iterate ih ((hext.frontier _).symm ▸ hy)

theorem insertIdx_length_append {α : Type} (x : α) :
    ∀ (M R : List α), (M ++ R).insertIdx M.length x = M ++ x :: R
  | [], R => List.insertIdx_zero
  | a :: M, R => by
    rw [List.cons_append, List.length_cons, List.insertIdx_succ_cons, insertIdx_length_append x M R]
    rfl

/-- The merges at the top of a block, above operations none of which is a merge, are all the
merges there. -/
theorem leadingMerges_eq {M R : List Nat} (hops : (f.graph.get b).ops.toList = M ++ R)
    (hM : ∀ m ∈ M, ∃ x, f.store.op? m = some x ∧ x.opcode = .multiEqual)
    (hR : ∀ o ∈ R, ∀ x, f.store.op? o = some x → x.opcode ≠ .multiEqual) :
    f.leadingMerges b = M.length := by
  unfold leadingMerges
  rw [hops, List.takeWhile_append_of_pos fun m hm => by
    obtain ⟨x, hx, hop⟩ := hM m hm
    simp [hx, hop]]
  cases R with
  | nil => simp
  | cons o R =>
    rw [List.takeWhile_cons_of_neg, List.append_nil]
    cases hx : f.store.op? o with
    | none => simp
    | some x => simp [hR o List.mem_cons_self x hx]

/-- `f` is `f₀`, a function without merges, with the merges of the variables `done` placed:
at the top of each block, above the operations `f₀` has there, one merge of each variable whose
writers' iterated frontier holds the block; every new operation is such a merge. -/
structure AllPlaced (f₀ f : Function) (done : List (Location × List Nat)) : Prop where
  sound : f.store.Sound
  blocks : f.BlocksHold
  ext : Extends f₀ f
  top : ∀ b, ∃ M, (f.graph.get b).ops.toList = M ++ (f₀.graph.get b).ops.toList ∧
    ∀ m ∈ M, f₀.graph.Live b ∧ ∃ k, f.IsMerge k b m
  new : ∀ o, f₀.store.ops.size ≤ o → o < f.store.ops.size → ∃ k b, f.IsMerge k b o
  keyed : ∀ k b, (f.mergesOf k b).length ≤ 1 ∧
    (f.mergesOf k b ≠ [] ↔ ∃ ws, (k, ws) ∈ done ∧ f₀.graph.InIdf (· ∈ ws) b)
  plain : ∀ o, f₀.store.ops.size ≤ o → f.OutputPlain o

theorem AllPlaced.start (hS : f₀.store.Sound) (hB : f₀.BlocksHold) (h₀ : NoMerges f₀) :
    AllPlaced f₀ f₀ [] := by
  have hnone : ∀ k b, f₀.mergesOf k b = [] := fun k b => by
    refine List.filter_eq_nil_iff.mpr fun o ho => ?_
    rw [(Extends.refl f₀).mergeKey_old h₀ (hB.lt_size (Array.mem_toList_iff.mp ho))]
    simp
  refine ⟨hS, hB, Extends.refl f₀, fun b => ⟨[], rfl, fun _ h => absurd h List.not_mem_nil⟩,
    fun o h₁ h₂ => absurd h₂ (Nat.not_lt.mpr h₁), fun k b => ?_,
    fun o ho x _ hx _ => absurd (Store.lt_of_isSome_op? (by simp [hx])) (Nat.not_lt.mpr ho)⟩
  rw [hnone k b]
  simp

theorem map_loc_node (s : Store) (v : Nat) : (s.node v).map Varnode.loc = (s.vn? v).map Varnode.loc := by
  simp [Store.node, Option.map_map, Function.comp_def]

/-- An extension keeps the variable of every merge. -/
theorem Extends.mergeKey_eq (hext : Extends f g) (hS : f.store.Sound) {o : Nat}
    (ho : o < f.store.ops.size) : g.mergeKey o = f.mergeKey o := by
  have hg := hext.ops o ho
  cases hx : f.store.op? o with
  | none =>
    rw [hx, Option.map_none, Option.map_eq_none_iff] at hg
    simp [Function.mergeKey, hg, hx]
  | some x =>
    rw [hx] at hg
    obtain ⟨x', hx', hu⟩ := Option.map_eq_some_iff.mp hg
    have hop : x'.opcode = x.opcode := by simpa using congrArg Op.opcode hu
    have hout : x'.output = x.output := by simpa using congrArg Op.output hu
    simp only [Function.mergeKey, hx, hx', Option.bind_some, hop, hout]
    split
    · cases hv : x.output with
      | none => rfl
      | some v =>
        obtain ⟨y, hy, -⟩ := hS.linked.output_def hx hv
        have hlt : v < f.store.varnodes.size := Store.lt_of_isSome_vn? (by simp [hy])
        simp only [Option.bind_some]
        rw [← map_loc_node, ← map_loc_node, hext.nodes v hlt]
    · rfl

theorem mergesOf_congr {k : Location} {b : Nat} (hops : (g.graph.get b).ops = (f.graph.get b).ops)
    (hkey : ∀ o ∈ (f.graph.get b).ops, g.mergeKey o = f.mergeKey o) :
    g.mergesOf k b = f.mergesOf k b := by
  unfold mergesOf
  rw [hops]
  exact List.filter_congr fun o ho => by rw [hkey o (Array.mem_toList_iff.mp ho)]

theorem Extends.opcode_old (hext : Extends f₀ f) (h₀ : NoMerges f₀) {o : Nat}
    (ho : o < f₀.store.ops.size) {x : Op} (hx : f.store.op? o = some x) : x.opcode ≠ .multiEqual := by
  have hg := hext.ops o ho
  rw [hx, Option.map_some] at hg
  obtain ⟨x₀, hx₀, hu⟩ := Option.map_eq_some_iff.mp hg.symm
  have hop : x₀.opcode = x.opcode := by simpa using congrArg Op.opcode hu
  exact hop ▸ h₀ o x₀ hx₀

/-- The merges placed above the operations of `f₀` are all the leading merges. -/
theorem AllPlaced.leadingMerges {done : List (Location × List Nat)} (h : AllPlaced f₀ f done)
    (hB₀ : f₀.BlocksHold) (h₀ : NoMerges f₀) {b : Nat} {M : List Nat}
    (hM : (f.graph.get b).ops.toList = M ++ (f₀.graph.get b).ops.toList)
    (hMm : ∀ m ∈ M, f₀.graph.Live b ∧ ∃ k, f.IsMerge k b m) : f.leadingMerges b = M.length := by
  refine leadingMerges_eq hM (fun m hm => ?_) fun o ho x hx => ?_
  · obtain ⟨-, k, x, hx, hop, -⟩ := hMm m hm
    exact ⟨x, hx, hop⟩
  · exact h.ext.opcode_old h₀ (hB₀.lt_size (Array.mem_toList_iff.mp ho)) hx

theorem toList_insertIdxIfInBounds {α : Type} (xs : Array α) (i : Nat) (a : α) :
    (xs.insertIdxIfInBounds i a).toList = xs.toList.insertIdx i a := by
  rcases xs with ⟨l⟩
  rw [List.insertIdxIfInBounds_toArray]

/-- Inserting one merge of `k` adds it to the merges of `k` and no other. -/
theorem mergesOf_length_insert {b m : Nat} {k : Location} {M R : List Nat}
    (hg : (g.graph.get b).ops.toList = M ++ m :: R) (hf : (f.graph.get b).ops.toList = M ++ R)
    (hkeep : ∀ o ∈ M ++ R, g.mergeKey o = f.mergeKey o) (hm : g.mergeKey m = some k)
    (k' : Location) :
    (g.mergesOf k' b).length = (f.mergesOf k' b).length + if k' = k then 1 else 0 := by
  have hM : M.filter (fun o => g.mergeKey o = some k') = M.filter (fun o => f.mergeKey o = some k') :=
    List.filter_congr fun o ho => by rw [hkeep o (List.mem_append_left _ ho)]
  have hR : R.filter (fun o => g.mergeKey o = some k') = R.filter (fun o => f.mergeKey o = some k') :=
    List.filter_congr fun o ho => by rw [hkeep o (List.mem_append_right _ ho)]
  unfold mergesOf
  rw [hg, hf, List.filter_append, List.filter_cons, hM, hR, List.filter_append]
  by_cases hk : k' = k
  · simp [hm, hk]
    omega
  · simp [hm, Ne.symm hk, hk]

/-- One more variable, whose merges are not placed yet. -/
theorem AllPlaced.placeMerges {done : List (Location × List Nat)} (h : AllPlaced f₀ f done)
    (hB₀ : f₀.BlocksHold) (h₀ : NoMerges f₀) (hF : f₀.graph.FrontiersLive) {k : Location}
    (hkey : k.addr.space ≠ f₀.store.constSpace) (hk : ∀ ws, (k, ws) ∉ done) {ws : List Nat}
    (hws : ∀ w ∈ ws, f₀.graph.Live w) (hnd : ws.Nodup) (maxDepth : Nat) :
    ∃ g, f.placeMerges maxDepth k ws = .ok g ∧ AllPlaced f₀ g (done ++ [(k, ws)]) := by
  obtain ⟨g, bs, hrun, hkp, hbs⟩ := placeMerges_spec h.sound h.blocks (h.ext.constSpace ▸ hkey)
    (h.ext.frontiersLive hF) (fun w hw => (h.ext.live_iff w).mpr (hws w hw)) hnd maxDepth
  have hbs' : ∀ b, b ∈ bs ↔ f₀.graph.InIdf (· ∈ ws) b := fun b => (hbs b).trans (h.ext.inIdf_iff b)
  have hlive : ∀ b ∈ bs, f₀.graph.Live b := fun b hb =>
    BlockGraph.InIdf.live hF (fun w hw => hws w hw) ((hbs' b).mp hb)
  -- the operations `f` lists keep their variables
  have hkeep : ∀ b, ∀ o ∈ (f.graph.get b).ops, g.mergeKey o = f.mergeKey o :=
    fun b o ho => hkp.ext.mergeKey_eq h.sound (h.blocks.lt_size ho)
  -- at a block of `bs` the new merge sits right below the merges `f` has there
  have hins : ∀ b ∈ bs, ∃ M, (f.graph.get b).ops.toList = M ++ (f₀.graph.get b).ops.toList ∧
      (∀ m ∈ M, f₀.graph.Live b ∧ ∃ k, f.IsMerge k b m) ∧
      (g.graph.get b).ops.toList = M ++ (f.store.ops.size + bs.idxOf b) :: (f₀.graph.get b).ops.toList ∧
      g.IsMerge k b (f.store.ops.size + bs.idxOf b) := by
    intro b hb
    obtain ⟨M, hM, hMm⟩ := h.top b
    refine ⟨M, hM, hMm, ?_, ?_⟩
    · rw [hkp.ops b, if_pos hb, toList_insertIdxIfInBounds, hM, h.leadingMerges hB₀ h₀ hM hMm,
        insertIdx_length_append]
    · have hm := hkp.merge (bs.idxOf b) (List.idxOf_lt_length_of_mem hb)
      rwa [List.getElem_idxOf] at hm
  refine ⟨g, hrun, hkp.sound, hkp.blocks, h.ext.trans hkp.ext, fun b => ?_, fun o h₁ h₂ => ?_,
    fun k' b => ?_, fun o ho => ?_⟩
  · by_cases hb : b ∈ bs
    · obtain ⟨M, -, hMm, hg, hm⟩ := hins b hb
      refine ⟨M ++ [f.store.ops.size + bs.idxOf b], by simpa using hg, fun m hm' => ?_⟩
      rcases List.mem_append.mp hm' with hm' | hm'
      · obtain ⟨hl, k', hk'⟩ := hMm m hm'
        exact ⟨hl, k', hk'.mono hkp.ext⟩
      · rw [List.mem_singleton.mp hm']
        exact ⟨hlive b hb, k, hm⟩
    · obtain ⟨M, hM, hMm⟩ := h.top b
      refine ⟨M, by rw [hkp.ops b, if_neg hb, hM], fun m hm => ?_⟩
      obtain ⟨hl, k', hk'⟩ := hMm m hm
      exact ⟨hl, k', hk'.mono hkp.ext⟩
  · by_cases ho : o < f.store.ops.size
    · obtain ⟨k', b', hm⟩ := h.new o h₁ ho
      exact ⟨k', b', hm.mono hkp.ext⟩
    · have hi : o - f.store.ops.size < bs.length := by rw [hkp.ops_size] at h₂; omega
      have hm := hkp.merge _ hi
      rw [Nat.add_sub_cancel' (Nat.le_of_not_lt ho)] at hm
      exact ⟨k, _, hm⟩
  · obtain ⟨hle, hiff⟩ := h.keyed k' b
    have hnew : ∀ ws', (k', ws') ∈ done ++ [(k, ws)] ↔ (k', ws') ∈ done ∨ k' = k ∧ ws' = ws := by
      simp
    by_cases hb : b ∈ bs
    · obtain ⟨M, hM, -, hg, hm⟩ := hins b hb
      have hlen := mergesOf_length_insert hg hM
        (fun o ho => hkeep b o (Array.mem_toList_iff.mp (hM ▸ ho))) hm.mergeKey k'
      by_cases hk' : k' = k
      · subst hk'
        have hnil : f.mergesOf k' b = [] := by
          by_contra hne
          obtain ⟨ws', hws', -⟩ := hiff.mp hne
          exact hk ws' hws'
        rw [hnil, if_pos rfl] at hlen
        refine ⟨by simp [hlen], ⟨fun _ => ⟨ws, by simp, (hbs' b).mp hb⟩, fun _ => ?_⟩⟩
        rw [← List.length_pos_iff]
        simp [hlen]
      · rw [if_neg hk', add_zero] at hlen
        refine ⟨hlen ▸ hle, ?_⟩
        rw [← List.length_pos_iff, hlen, List.length_pos_iff, hiff]
        simp [hnew, hk']
    · rw [mergesOf_congr (by rw [hkp.ops b, if_neg hb]) (hkeep b)]
      refine ⟨hle, hiff.trans ⟨fun ⟨ws', h₁, h₂⟩ => ⟨ws', by simp [h₁], h₂⟩, fun ⟨ws', h₁, h₂⟩ => ?_⟩⟩
      rcases (hnew ws').mp h₁ with h₁ | ⟨rfl, rfl⟩
      · exact ⟨ws', h₁, h₂⟩
      · exact absurd ((hbs' b).mpr h₂) hb
  · by_cases ho' : o < f.store.ops.size
    · exact (h.plain o ho).mono ho' hkp.ext
    · intro x v hx hv
      have hlt : o < g.store.ops.size := Store.lt_of_isSome_op? (by simp [hx])
      have hi : o - f.store.ops.size < bs.length := by rw [hkp.ops_size] at hlt; omega
      have hpl := hkp.plain _ hi
      rw [Nat.add_sub_cancel' (Nat.le_of_not_lt ho')] at hpl
      exact hpl x v hx hv

end Function

end MicroSsa
