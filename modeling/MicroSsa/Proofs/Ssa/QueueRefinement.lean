import MicroSsa.Proofs.Ssa.Queue
/-!
# Depth queues against the plain list they stand for

A depth queue stands for a plain list of the numbers queued, each with its depth, the most
recently inserted first (`DepthQueue.Listed`). On that list a reset empties it, an insertion puts
the pair in front, and an extraction takes out the first pair, the most recently inserted one,
among those of greatest depth.

The queue stands for the list (`DepthQueue.Represents`) when it is well formed and its stack at
each depth holds the numbers listed at that depth, in list order. Each request keeps this and
gives the list's answer (`Represents.serve`); the stack popped by an extraction is the deepest
one holding a number because no stack above the current depth holds one, which is what
`DepthQueue.Wf` carries. Requests served in turn from an empty queue therefore give the list's
answers (`replies_eq_listed`), and so does a run of requests that stays within the room a row of
stacks can have (`run_eq_listed`).
-/

namespace MicroSsa

namespace DepthQueue

/-- The numbers queued, each with its depth, the most recently inserted first. -/
abbrev Listed := List (Nat × Nat)

namespace Listed

/-- Whether a pair lies at least as deep as every listed pair. -/
def deepest (l : Listed) (p : Nat × Nat) : Bool := l.all fun q => q.2 ≤ p.2

/-- Takes out the first listed pair of greatest depth, the most recently inserted one, and gives
its number; nothing when the list is empty. -/
def extract (l : Listed) : Option Nat × Listed :=
  match l.find? (deepest l) with
  | some p => (some p.1, l.erase p)
  | none => (none, l)

/-- Serves one request. -/
def serve (l : Listed) : Step → Reply × Listed
  | .reset _ => (.done, [])
  | .insert x d => (.done, (x, d) :: l)
  | .extract => (.extracted l.extract.1, l.extract.2)
  | .isEmpty => (.empty l.isEmpty, l)

/-- The replies to requests served in turn. -/
def replies (l : Listed) : List Step → List Reply
  | [] => []
  | s :: ss => (l.serve s).1 :: replies (l.serve s).2 ss

theorem deepest_iff {l : Listed} {p : Nat × Nat} : deepest l p = true ↔ ∀ q ∈ l, q.2 ≤ p.2 := by
  simp [deepest]

end Listed

/-- Serves one request, with room for any depth. -/
def serve (q : DepthQueue) : Step → Reply × DepthQueue
  | .reset m => (.done, reset m)
  | .insert x d => (.done, q.insert x d)
  | .extract => (.extracted q.extract.1, q.extract.2)
  | .isEmpty => (.empty q.isEmpty, q)

/-- The replies to requests served in turn. -/
def replies (q : DepthQueue) : List Step → List Reply
  | [] => []
  | s :: ss => (q.serve s).1 :: replies (q.serve s).2 ss

/-- The numbers listed at a depth, in list order. -/
def atDepth (l : Listed) (d : Nat) : List Nat := (l.filter (·.2 == d)).map Prod.fst

/-- A queue stands for a list: it is well formed, and its stack at each depth holds the numbers
listed at that depth, in list order. -/
structure Represents (q : DepthQueue) (l : Listed) : Prop where
  wf : q.Wf
  bucket_eq : ∀ d, bucket q.buckets d = atDepth l d

@[simp] theorem atDepth_nil (d : Nat) : atDepth [] d = [] := rfl

theorem atDepth_cons (p : Nat × Nat) (l : Listed) (d : Nat) :
    atDepth (p :: l) d = if p.2 = d then p.1 :: atDepth l d else atDepth l d := by
  by_cases h : p.2 = d <;> simp [atDepth, h]

/-- A listed pair puts its number in the stack of its depth. -/
theorem atDepth_ne_nil {l : Listed} {p : Nat × Nat} (hp : p ∈ l) : atDepth l p.2 ≠ [] := by
  simp only [atDepth, ne_eq, List.map_eq_nil_iff, List.filter_eq_nil_iff, beq_iff_eq, not_forall,
    not_not]
  exact ⟨p, hp, rfl⟩

/-! ## Resetting, inserting, asking for emptiness -/

/-- A queue with no current depth and no number in any stack stands for the empty list. -/
theorem represents_empty (bs : Array (List Nat)) (h : ∀ d, bucket bs d = []) :
    Represents { buckets := bs, current := none } [] where
  wf := ⟨fun c hc => (by cases hc), fun d hd => absurd (h d) hd⟩
  bucket_eq d := h d

theorem represents_reset (n : Nat) : (reset n).Represents [] :=
  represents_empty _ (bucket_reset n)

theorem Represents.insert {q : DepthQueue} {l : Listed} (h : q.Represents l) (x d : Nat) :
    (q.insert x d).Represents ((x, d) :: l) where
  wf := h.wf.insert x d
  bucket_eq d' := by
    rw [bucket_insert, atDepth_cons, h.bucket_eq]
    by_cases hd : d' = d
    · simp [hd]
    · simp [hd, Ne.symm hd]

/-- A queue is empty exactly when the list it stands for is. -/
theorem Represents.isEmpty_eq {q : DepthQueue} {l : Listed} (h : q.Represents l) :
    q.isEmpty = l.isEmpty := by
  cases l with
  | nil =>
    simp only [isEmpty, List.isEmpty_nil, Array.all_eq_true]
    intro i hi
    have := h.bucket_eq i
    simp only [bucket, Array.getElem?_eq_getElem hi, Option.getD_some, atDepth_nil] at this
    simp [this]
  | cons p l =>
    -- the stack at the depth of the first pair holds its number, and lies within the row
    have hne : bucket q.buckets p.2 ≠ [] := h.bucket_eq p.2 ▸ atDepth_ne_nil List.mem_cons_self
    have hlt : p.2 < q.buckets.size :=
      Nat.lt_of_not_le fun hle => hne (bucket_of_size_le hle)
    simp only [isEmpty, List.isEmpty_cons, Array.all_eq_false]
    refine ⟨p.2, hlt, ?_⟩
    simpa [bucket, Array.getElem?_eq_getElem hlt] using hne

/-! ## Extracting -/

/-- An extraction pops the deepest stack that holds a number: every stack above it is empty. -/
theorem extract_some_deepest {q q' : DepthQueue} {x : Nat} (hq : q.Wf)
    (h : q.extract = (some x, q')) :
    ∃ e rest, e < q.buckets.size ∧ bucket q.buckets e = x :: rest ∧
      (∀ d, e < d → bucket q.buckets d = []) ∧ q'.buckets = q.buckets.set! e rest := by
  unfold extract at h
  split at h
  · cases h
  · rename_i c hc
    rcases popFrom_spec q.buckets c with ⟨e, x', rest, hec, he, hbetween, hpop⟩ | ⟨-, hpop⟩
    · rw [hpop] at h
      simp only [Prod.mk.injEq, Option.some.injEq] at h
      obtain ⟨rfl, rfl⟩ := h
      refine ⟨e, rest, by have := hq.current_lt c hc; omega, he, fun d hd => ?_, rfl⟩
      by_cases hdc : d ≤ c
      · exact hbetween d hd hdc
      · -- above the current depth every stack is empty
        by_contra hne
        obtain ⟨c', hc', hdc'⟩ := hq.below d hne
        rw [hc] at hc'
        cases hc'
        exact hdc hdc'
    · rw [hpop] at h
      cases h

/-- The list's extraction takes the first pair at the greatest depth `e` when no pair is deeper
and some pair lies at `e`. -/
theorem Listed.extract_eq {l : Listed} {e x : Nat} (hdeep : ∀ p ∈ l, p.2 ≤ e)
    (hfind : l.find? (·.2 == e) = some (x, e)) : l.extract = (some x, l.erase (x, e)) := by
  obtain ⟨-, as, bs, hl, has⟩ := List.find?_eq_some_iff_append.mp hfind
  have hmem : (x, e) ∈ l := List.mem_of_find?_eq_some hfind
  have hdeepest : l.find? (Listed.deepest l) = some (x, e) := by
    refine List.find?_eq_some_iff_append.mpr ⟨Listed.deepest_iff.mpr hdeep, as, bs, hl, ?_⟩
    intro a ha
    -- a pair before the first one at depth `e` lies higher, so is not the deepest
    have hae : a.2 ≠ e := by simpa using has a ha
    have hale : a.2 ≤ e := hdeep a (hl ▸ List.mem_append_left _ ha)
    simp only [Bool.not_eq_eq_eq_not, Bool.not_true]
    rw [Bool.eq_false_iff, ne_eq, Listed.deepest_iff]
    intro hall
    have := hall _ hmem
    omega
  simp [Listed.extract, hdeepest]

theorem Represents.extract {q : DepthQueue} {l : Listed} (h : q.Represents l) :
    q.extract.1 = l.extract.1 ∧ q.extract.2.Represents l.extract.2 := by
  have hwf' : q.extract.2.Wf := h.wf.extract (x := q.extract.1) rfl
  cases hx : q.extract with
  | mk x q' =>
  cases x with
  | none =>
    -- nothing came out: every stack is empty, so the list is empty
    obtain ⟨hempty, hq'⟩ := extract_none h.wf hx
    have hl : l = [] := by
      cases l with
      | nil => rfl
      | cons p l =>
        exact absurd ((h.bucket_eq p.2).symm.trans (hempty p.2)) (atDepth_ne_nil List.mem_cons_self)
    subst hl
    rw [hx] at hwf'
    exact ⟨rfl, hwf', fun d => by rw [hq', hempty d]; rfl⟩
  | some x =>
    obtain ⟨e, rest, he, hbucket, habove, hq'⟩ := extract_some_deepest h.wf hx
    have hdeep : ∀ p ∈ l, p.2 ≤ e := fun p hp => Nat.le_of_not_lt fun hlt =>
      atDepth_ne_nil hp ((h.bucket_eq p.2).symm.trans (habove p.2 hlt))
    -- the stack at `e` lists the pairs at depth `e`, the first of which carries `x`
    obtain ⟨tail, hfilter, hrest⟩ : ∃ tail, l.filter (·.2 == e) = (x, e) :: tail ∧
        rest = tail.map Prod.fst := by
      have hb := (h.bucket_eq e).symm.trans hbucket
      unfold atDepth at hb
      cases hf : l.filter (·.2 == e) with
      | nil => simp [hf] at hb
      | cons p tail =>
        have hmemf : p ∈ l.filter (·.2 == e) := hf ▸ List.mem_cons_self
        have hpe := (List.mem_filter.mp hmemf).2
        have hp : p.2 = e := beq_iff_eq.mp hpe
        rw [hf, List.map_cons, List.cons.injEq] at hb
        exact ⟨tail, by rw [← hb.1, ← hp], hb.2.symm⟩
    have hfind : l.find? (·.2 == e) = some (x, e) := by
      rw [← List.head?_filter, hfilter]
      rfl
    rw [Listed.extract_eq hdeep hfind]
    rw [hx] at hwf'
    refine ⟨rfl, hwf', fun d => ?_⟩
    rw [hq', bucket_set rest he, atDepth, ← List.erase_filter]
    by_cases hd : d = e
    · subst hd
      rw [if_pos rfl, hfilter, List.erase_cons_head, hrest]
    · rw [if_neg hd, List.erase_of_not_mem, h.bucket_eq d]
      · rfl
      · intro hmem
        have := List.of_mem_filter hmem
        simp only [beq_iff_eq] at this
        exact hd this.symm

/-! ## Requests served in turn -/

theorem Represents.serve {q : DepthQueue} {l : Listed} (h : q.Represents l) (s : Step) :
    (q.serve s).1 = (l.serve s).1 ∧ (q.serve s).2.Represents (l.serve s).2 := by
  cases s with
  | reset m => exact ⟨rfl, represents_reset m⟩
  | insert x d => exact ⟨rfl, h.insert x d⟩
  | extract => exact ⟨by simp [DepthQueue.serve, Listed.serve, h.extract.1], h.extract.2⟩
  | isEmpty => exact ⟨by simp [DepthQueue.serve, Listed.serve, h.isEmpty_eq], h⟩

theorem Represents.replies {q : DepthQueue} {l : Listed} (h : q.Represents l) (ss : List Step) :
    q.replies ss = l.replies ss := by
  induction ss generalizing q l with
  | nil => rfl
  | cons s ss ih =>
    obtain ⟨hreply, hnext⟩ := h.serve s
    simp only [DepthQueue.replies, Listed.replies, hreply, ih hnext]

/-! ## Runs within the room of a row of stacks -/

/-- A request within the room a row of stacks can have: a reset and an insertion below
`capacity` depths. -/
def Step.fits : Step → Bool
  | .reset m => m < capacity
  | .insert _ d => d < capacity
  | .extract => true
  | .isEmpty => true

theorem size_extract (q : DepthQueue) : q.extract.2.buckets.size = q.buckets.size := by
  unfold extract
  split
  · rfl
  · rename_i c _
    rcases popFrom_spec q.buckets c with ⟨e, x, rest, -, -, -, hpop⟩ | ⟨-, hpop⟩
    · simp [hpop]
    · simp [hpop]

theorem capacity_lt : capacity < Nat.pow 2 64 := by
  decide

/-- A served request within the room of the row answers as the list does, and keeps the row
within that room. -/
theorem Represents.step {q : DepthQueue} {l : Listed} (h : q.Represents l)
    (hsize : q.buckets.size ≤ capacity) {s : Step} (hs : s.fits) :
    ∃ q', q.step s = .ok ((l.serve s).1, q') ∧ q'.Represents (l.serve s).2 ∧
      q'.buckets.size ≤ capacity := by
  have hcap := capacity_lt
  cases s with
  | reset m =>
    have hm : m < capacity := by simpa [Step.fits] using hs
    have hroom : roomFor (m + 1) = .ok (m + 1) := by
      simp only [roomFor, Nat.mod_eq_of_lt (show m + 1 < Nat.pow 2 64 by omega)]
      rw [if_neg (by omega)]
      rfl
    refine ⟨{ buckets := Array.replicate (m + 1) [], current := none },
      by simp [DepthQueue.step, hroom, Listed.serve], represents_empty _ fun d => ?_,
      by simp; omega⟩
    simp only [bucket, Array.getElem?_replicate]
    split <;> rfl
  | insert x d =>
    have hd : d < capacity := by simpa [Step.fits] using hs
    refine ⟨q.insert x d, ?_, h.insert x d, by rw [size_insert]; omega⟩
    simp only [DepthQueue.step]
    split
    · rfl
    · have hroom : roomFor (d + 1) = .ok (d + 1) := by
        simp only [roomFor, Nat.mod_eq_of_lt (show d + 1 < Nat.pow 2 64 by omega)]
        rw [if_neg (by omega)]
        rfl
      simp only [hroom, bind, Except.bind]
      rw [if_neg (Nat.not_succ_le_self d)]
      rfl
  | extract =>
    refine ⟨q.extract.2, ?_, (h.serve .extract).2, by rw [size_extract]; exact hsize⟩
    show Except.ok (Reply.extracted q.extract.1, q.extract.2) = .ok (.extracted l.extract.1, _)
    rw [h.extract.1]
  | isEmpty =>
    refine ⟨q, ?_, h, hsize⟩
    show Except.ok (Reply.empty q.isEmpty, q) = .ok (.empty l.isEmpty, q)
    rw [h.isEmpty_eq]

/-- One round of `run`: serve a request and put its reply in front of those gathered. -/
def gather (acc : List Reply × DepthQueue) (s : Step) : Except Fault (List Reply × DepthQueue) :=
  (acc.2.step s).map fun p => (p.1 :: acc.1, p.2)

theorem run_eq_foldlM (steps : List Step) :
    run steps = (steps.foldlM gather ([], {})).map (·.1.reverse) := rfl

/-- The rounds of `run` from any queue standing for a list: their replies are the list's, newest
first, ahead of those gathered before. -/
theorem foldlM_gather : ∀ (steps : List Step) (q : DepthQueue) (l : Listed) (acc : List Reply),
    q.Represents l → q.buckets.size ≤ capacity → (∀ s ∈ steps, s.fits) →
    ∃ q', steps.foldlM gather (acc, q) = .ok ((l.replies steps).reverse ++ acc, q')
  | [], q, _, acc, _, _, _ => ⟨q, rfl⟩
  | s :: ss, q, l, acc, h, hsize, hfit => by
    obtain ⟨q', hstep, h', hsize'⟩ := h.step hsize (hfit s List.mem_cons_self)
    obtain ⟨q'', hrest⟩ := foldlM_gather ss q' (l.serve s).2 ((l.serve s).1 :: acc) h' hsize'
      fun s' hs' => hfit s' (List.mem_cons_of_mem s hs')
    refine ⟨q'', ?_⟩
    simpa [List.foldlM_cons, gather, hstep, Except.map, bind, Except.bind, Listed.replies]
      using hrest

/-- A run of requests that stays within the room of a row of stacks answers as the plain list
does. -/
theorem run_eq_listed (steps : List Step) (hfit : ∀ s ∈ steps, s.fits) :
    run steps = .ok (Listed.replies [] steps) := by
  obtain ⟨q', hfold⟩ := foldlM_gather steps {} [] [] (represents_empty #[] fun _ => rfl)
    (Nat.zero_le _) hfit
  rw [run_eq_foldlM, hfold]
  simp [Except.map]

/-- Requests of any kind and at any depth, served in turn from an empty queue, get the answers of
the plain list: no number is lost or given back twice, and each extraction gives the most
recently inserted number of greatest depth. A run of requests gets the same answers as long as
the row of stacks it needs can be made. -/
theorem replies_eq_listed (steps : List Step) :
    ({} : DepthQueue).replies steps = Listed.replies [] steps ∧
      ((∀ s ∈ steps, s.fits) → run steps = .ok (Listed.replies [] steps)) :=
  ⟨(represents_empty #[] fun _ => rfl).replies steps, run_eq_listed steps⟩

/-- Deepest first, and a number inserted deeper than the current depth while extracting comes out
next. -/
theorem replies_eq_listed_deepestFirst :
    (∀ s ∈ [Step.reset 4, .insert 10 1, .insert 11 3, .insert 12 2, .insert 13 3, .extract,
      .extract, .extract, .insert 14 4, .extract, .extract, .extract, .isEmpty], s.fits) ∧
    run [.reset 4, .insert 10 1, .insert 11 3, .insert 12 2, .insert 13 3, .extract, .extract,
      .extract, .insert 14 4, .extract, .extract, .extract, .isEmpty] =
      .ok [.done, .done, .done, .done, .done, .extracted (some 13), .extracted (some 11),
        .extracted (some 12), .done, .extracted (some 14), .extracted (some 10),
        .extracted none, .empty true] := by
  refine ⟨by decide, ?_⟩
  rw [(replies_eq_listed _).2 (by decide)]
  rfl

end DepthQueue

end MicroSsa
