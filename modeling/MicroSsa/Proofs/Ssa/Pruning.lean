import MicroSsa.Proofs.Ssa.Renaming
/-!
# Pruning keeps exactly the merges whose results reach a real use

A merge is worth keeping when an operation other than a merge reads its result, directly or
through a chain of merges each reading the result of the one before (`ReachesNonMerge`).

`liveMerges` finds those merges with a worklist. It starts from the merges some non-merge
reads, and from each merge it takes out it queues the merges that write its inputs. Two facts
carry the proof, as for any marking pass (`GrowInv`):

1. every merge taken or queued reaches a real use, so the answer holds no other merge;
2. every merge taken has its feeding merges taken or queued, so once the queue is empty the
   answer is closed under feeding and holds every merge that reaches a real use
   (`closed_contains`).

The fuel the worklist is given bounds its passes: each pass shortens the queue or takes a merge
for the first time, which queues at most one merge per input slot (`untakenSlots`).
-/

namespace MicroSsa

namespace Function

variable {f : Function}

/-! ## Merges that reach a real use -/

/-- Operation `u` reads the output of operation `m`. -/
def ReadsOutput (f : Function) (m u : Nat) : Prop :=
  ∃ x v y, f.store.op? m = some x ∧ x.output = some v ∧ f.store.op? u = some y ∧ v ∈ y.inputs

/-- From `m`, following output-to-use edges through merges only, an operation that is not a
merge is reached. -/
inductive ReachesNonMerge (f : Function) : Nat → Prop
  | direct {m u : Nat} : f.ReadsOutput m u → f.isMerge u = false → ReachesNonMerge f m
  | through {m u : Nat} : f.ReadsOutput m u → f.isMerge u = true → ReachesNonMerge f u →
      ReachesNonMerge f m

/-- The test that seeds the worklist: some reader of the output of `m` is not a merge. -/
def Seed (f : Function) (m : Nat) : Prop :=
  Option.any (fun x => x.uses.any fun u => !f.isMerge u)
    (((f.store.op? m).bind fun x => x.output) >>= f.store.vn?) = true

/-- `d`, one of `merges` other than `m`, writes an input of `m`: the worklist queues it when it
takes `m`. -/
def Feeds (f : Function) (merges : List Nat) (m d : Nat) : Prop :=
  d ∈ merges ∧ d ≠ m ∧ ∃ x v, f.store.op? m = some x ∧ v ∈ x.inputs ∧
    ((f.store.vn? v).bind fun y => y.defOp) = some d

/-- A reader named in the uses of a varnode reads it. -/
theorem reads_of_mem_uses (hS : f.store.Sound) {v u : Nat} {y : Varnode}
    (hy : f.store.vn? v = some y) (hu : u ∈ y.uses) :
    ∃ yu, f.store.op? u = some yu ∧ v ∈ yu.inputs := by
  have hc := hS.linked.uses_count hy u
  have hpos : 0 < y.uses.count u := Array.count_pos_iff.mpr hu
  rw [hc] at hpos
  unfold Store.readsOf at hpos
  cases hx : f.store.op? u with
  | none => simp [hx] at hpos
  | some yu =>
    rw [hx, Option.map_some, Option.getD_some] at hpos
    exact ⟨yu, rfl, Array.count_pos_iff.mp hpos⟩

theorem Seed.reaches (hS : f.store.Sound) {m : Nat} (h : f.Seed m) : f.ReachesNonMerge m := by
  obtain ⟨y, hy, hu⟩ := (Option.any_eq_true _ _).mp h
  obtain ⟨v, hv, hy⟩ := Option.bind_eq_some_iff.mp hy
  obtain ⟨x, hx, hout⟩ := Option.bind_eq_some_iff.mp hv
  obtain ⟨u, hu, hnm⟩ := Array.any_eq_true'.mp hu
  obtain ⟨yu, hyu, hin⟩ := reads_of_mem_uses hS hy hu
  exact .direct ⟨x, v, yu, hx, hout, hyu, hin⟩ (by simpa using hnm)

theorem seed_of_reads (hS : f.store.Sound) {m u : Nat} (h : f.ReadsOutput m u)
    (hu : f.isMerge u = false) : f.Seed m := by
  obtain ⟨x, v, yu, hx, hout, hyu, hin⟩ := h
  obtain ⟨y, hy, -⟩ := hS.linked.output_def hx hout
  have hc := hS.linked.uses_count hy u
  have hpos : 0 < f.store.readsOf u v := by
    simp [Store.readsOf, hyu, Array.count_pos_iff, hin]
  rw [← hc] at hpos
  unfold Seed
  rw [hx, Option.bind_some, hout]
  change Option.any _ (f.store.vn? v) = true
  rw [hy, Option.any_some, Array.any_eq_true']
  exact ⟨u, Array.count_pos_iff.mp hpos, by simp [hu]⟩

/-- A merge feeding a merge that reaches a real use reaches one too. -/
theorem Feeds.reaches (hS : f.store.Sound) {merges : List Nat} {m d : Nat}
    (h : f.Feeds merges m d) (hm : f.isMerge m = true) (hr : f.ReachesNonMerge m) :
    f.ReachesNonMerge d := by
  obtain ⟨-, -, x, v, hx, hin, hd⟩ := h
  obtain ⟨y, hy, hdef⟩ := Option.bind_eq_some_iff.mp hd
  obtain ⟨xd, hxd, hout⟩ := hS.linked.def_output hy hdef
  exact .through ⟨xd, v, x, hxd, hout, hx, hin⟩ hm hr

/-- A set of merges holding the seeds and, with each of its merges, the merges feeding it,
holds every merge that reaches a real use. -/
theorem closed_contains (hS : f.store.Sound) {merges : List Nat} (L : Nat → Prop)
    (hin : ∀ u, f.isMerge u = true → u ∈ merges)
    (hseed : ∀ m ∈ merges, f.Seed m → L m) (hclosed : ∀ m, L m → ∀ d, f.Feeds merges m d → L d) :
    ∀ m, f.ReachesNonMerge m → m ∈ merges → L m := by
  intro m hr
  induction hr with
  | direct hreads hu => exact fun hm => hseed _ hm (seed_of_reads hS hreads hu)
  | @through m u hreads hu _ ih =>
    intro hm
    by_cases hmu : m = u
    · exact hmu ▸ ih (hin u hu)
    · obtain ⟨x, v, yu, hx, hout, hyu, hv⟩ := hreads
      obtain ⟨y, hy, hdef⟩ := hS.linked.output_def hx hout
      exact hclosed u (ih (hin u hu)) m ⟨hm, hmu, yu, v, hyu, hv, by simp [hy, hdef]⟩

/-! ## The worklist -/

/-- The input slots of `m`, which bound the merges taking `m` can queue. -/
def slots (f : Function) (m : Nat) : Nat := ((f.store.op? m).map (·.inputs.size)).getD 0

/-- The slots of the merges not taken yet. -/
def untakenSlots (f : Function) (merges live : List Nat) : Nat :=
  (merges.map fun m => if m ∈ live then 0 else f.slots m).sum

theorem untaken_cons_le (live : List Nat) (m : Nat) (merges : List Nat) :
    f.untakenSlots merges (m :: live) ≤ f.untakenSlots merges live :=
  List.sum_le_sum fun a _ => by
    by_cases ha : a ∈ live
    · rw [if_pos (List.mem_cons_of_mem _ ha), if_pos ha]
    · split <;> simp

/-- Taking a merge for the first time takes its slots off the untaken ones. -/
theorem untaken_cons_add {live : List Nat} {m : Nat} (hl : m ∉ live) :
    ∀ {merges : List Nat}, m ∈ merges →
      f.untakenSlots merges (m :: live) + f.slots m ≤ f.untakenSlots merges live
  | a :: merges, hm => by
    simp only [untakenSlots, List.map_cons, List.sum_cons]
    by_cases ham : a = m
    · subst ham
      rw [if_pos List.mem_cons_self, if_neg hl]
      have := untaken_cons_le (f := f) live a merges
      simp only [untakenSlots] at this
      omega
    · have ih := untaken_cons_add hl (List.mem_of_ne_of_mem (Ne.symm ham) hm)
      simp only [untakenSlots] at ih
      by_cases hal : a ∈ live
      · rw [if_pos (List.mem_cons_of_mem _ hal), if_pos hal]
        omega
      · rw [if_neg (by simp [ham, hal]), if_neg hal]
        omega

theorem foldl_add_slots (merges : List Nat) : ∀ n,
    merges.foldl (fun n m => n + ((f.store.op? m).map (·.inputs.size)).getD 0) n =
      n + (merges.map f.slots).sum := by
  induction merges with
  | nil => simp
  | cons a merges ih =>
    intro n
    rw [List.foldl_cons, ih, List.map_cons, List.sum_cons, slots]
    omega

/-- What the worklist keeps: taken and queued merges reach a real use, the seeds are taken or
queued, and a taken merge has its feeders taken or queued. -/
structure GrowInv (f : Function) (merges live todo : List Nat) : Prop where
  taken : ∀ m ∈ live, m ∈ merges ∧ f.ReachesNonMerge m
  queued : ∀ m ∈ todo, m ∈ merges ∧ f.ReachesNonMerge m
  seeded : ∀ m ∈ merges, f.Seed m → m ∈ live ∨ m ∈ todo
  closed : ∀ m ∈ live, ∀ d, f.Feeds merges m d → d ∈ live ∨ d ∈ todo

/-- The queue grows by the merges feeding the one taken and not taken yet. -/
theorem mem_queued {merges live : List Nat} {m d : Nat} :
    d ∈ (((f.store.op? m).map (·.inputs.toList)).getD []).filterMap (fun v =>
      ((f.store.vn? v).bind fun y => y.defOp).filter fun d =>
        merges.contains d && !live.contains d && d != m) ↔ f.Feeds merges m d ∧ d ∉ live := by
  unfold Feeds
  cases hx : f.store.op? m with
  | none => simp
  | some x =>
    simp
    constructor
    · rintro ⟨v, hv, hd, ⟨hdm, hdl⟩, hne⟩
      exact ⟨⟨hdm, hne, v, hv, hd⟩, hdl⟩
    · rintro ⟨⟨hdm, hne, v, hv, hd⟩, hdl⟩
      exact ⟨v, hv, hd, ⟨hdm, hdl⟩, hne⟩

theorem length_queued (merges live : List Nat) (m : Nat) :
    ((((f.store.op? m).map (·.inputs.toList)).getD []).filterMap (fun v =>
      ((f.store.vn? v).bind fun y => y.defOp).filter fun d =>
        merges.contains d && !live.contains d && d != m)).length ≤ f.slots m := by
  refine (List.length_filterMap_le _ _).trans ?_
  cases hx : f.store.op? m <;> simp [slots, hx]

/-- The worklist, with fuel above the queue length and the pending slots, ends with its queue
empty: the merges it answers are closed under feeding. -/
theorem grow_spec (hS : f.store.Sound) {merges : List Nat}
    (hall : ∀ m ∈ merges, f.isMerge m = true) :
    ∀ n live todo, f.GrowInv merges live todo → todo.length + f.untakenSlots merges live < n →
      f.GrowInv merges (liveMerges.grow f merges n live todo) []
  | 0, _, _, _, hn => absurd hn (Nat.not_lt_zero _)
  | n + 1, live, [], h, _ => by
    rw [liveMerges.grow]
    exact h
  | n + 1, live, m :: todo, h, hn => by
    rw [liveMerges.grow]
    have hm := h.queued m List.mem_cons_self
    split
    · -- `m` was taken already
      rename_i hml
      rw [List.contains_iff_mem] at hml
      refine grow_spec hS hall n live todo ⟨h.taken, fun d hd => h.queued d (List.mem_cons_of_mem _ hd),
        fun d hd hs => ?_, fun d hd e he => ?_⟩ (by simp only [List.length_cons] at hn; omega)
      · rcases h.seeded d hd hs with hd | hd
        · exact .inl hd
        · rcases List.mem_cons.mp hd with rfl | hd
          · exact .inl hml
          · exact .inr hd
      · rcases h.closed d hd e he with he | he
        · exact .inl he
        · rcases List.mem_cons.mp he with rfl | he
          · exact .inl hml
          · exact .inr he
    · -- `m` is taken now and queues its feeders not taken yet
      rename_i hml
      rw [List.contains_iff_mem] at hml
      refine grow_spec hS hall n (m :: live) _ ⟨fun d hd => ?_, fun d hd => ?_, fun d hd hs => ?_,
        fun d hd e he => ?_⟩ ?_
      · rcases List.mem_cons.mp hd with rfl | hd
        · exact hm
        · exact h.taken d hd
      · rcases List.mem_append.mp hd with hd | hd
        · obtain ⟨hfeed, -⟩ := mem_queued.mp (List.mem_reverse.mp hd)
          exact ⟨hfeed.1, hfeed.reaches hS (hall m hm.1) hm.2⟩
        · exact h.queued d (List.mem_cons_of_mem _ hd)
      · rcases h.seeded d hd hs with hd | hd
        · exact .inl (List.mem_cons_of_mem _ hd)
        · rcases List.mem_cons.mp hd with rfl | hd
          · exact .inl List.mem_cons_self
          · exact .inr (List.mem_append_right _ hd)
      · by_cases hdl : e ∈ m :: live
        · exact .inl hdl
        · right
          rcases List.mem_cons.mp hd with rfl | hd
          · exact List.mem_append_left _ (List.mem_reverse.mpr
              (mem_queued.mpr ⟨he, fun h' => hdl (List.mem_cons_of_mem _ h')⟩))
          · rcases h.closed d hd e he with he' | he'
            · exact absurd (List.mem_cons_of_mem _ he') hdl
            · rcases List.mem_cons.mp he' with rfl | he'
              · exact absurd List.mem_cons_self hdl
              · exact List.mem_append_right _ he'
      · have hq := length_queued (f := f) merges live m
        have hp := untaken_cons_add (f := f) hml hm.1
        simp only [List.length_append, List.length_reverse, List.length_cons] at hn ⊢
        omega

/-- `liveMerges` answers exactly the merges, among those it is given, that reach a real use,
when it is given every merge. -/
theorem mem_liveMerges_iff (hS : f.store.Sound) {merges : List Nat}
    (hin : ∀ u, f.isMerge u = true → u ∈ merges) (hall : ∀ m ∈ merges, f.isMerge m = true)
    {m : Nat} (hm : m ∈ merges) : m ∈ f.liveMerges merges ↔ f.ReachesNonMerge m := by
  have hinit : f.GrowInv merges []
      (merges.filter fun m => Option.any (fun x => x.uses.any fun u => !f.isMerge u)
        (((f.store.op? m).bind fun x => x.output) >>= f.store.vn?)).reverse := by
    refine ⟨fun _ h => absurd h List.not_mem_nil, fun d hd => ?_, fun d hd hs => ?_,
      fun _ h => absurd h List.not_mem_nil⟩
    · obtain ⟨hd, hs⟩ := List.mem_filter.mp (List.mem_reverse.mp hd)
      exact ⟨hd, Seed.reaches hS hs⟩
    · exact .inr (List.mem_reverse.mpr (List.mem_filter.mpr ⟨hd, hs⟩))
  have hend : f.GrowInv merges (f.liveMerges merges) [] := by
    unfold liveMerges
    refine grow_spec hS hall _ [] _ hinit ?_
    rw [foldl_add_slots]
    have hlen := List.length_filter_le (fun m => Option.any (fun x => x.uses.any fun u => !f.isMerge u)
        (((f.store.op? m).bind fun x => x.output) >>= f.store.vn?)) merges
    have hpend : f.untakenSlots merges [] = (merges.map f.slots).sum := by simp [untakenSlots]
    simp only [List.length_reverse, hpend]
    omega
  constructor
  · exact fun h => (hend.taken m h).2
  · intro hr
    refine closed_contains hS (· ∈ f.liveMerges merges) hin (fun d hd hs => ?_)
      (fun d hd e he => ?_) m hr hm
    · rcases hend.seeded d hd hs with h | h
      · exact h
      · exact absurd h List.not_mem_nil
    · rcases hend.closed d hd e he with h | h
      · exact h
      · exact absurd h List.not_mem_nil

end Function

end MicroSsa
