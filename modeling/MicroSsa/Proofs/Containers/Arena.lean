import Mathlib.Data.List.Induction
import Mathlib.Data.List.Sigma
import MicroSsa.Arena
/-!
# Arena handles alias only when a generation wraps around

A run of requests to an arena (`Arena.run`) inserts values and removes them by handle, and logs
what each request did (`Arena.Event`). On every arena a run reaches from the empty one:

* the arena is well formed (`Arena.Wf`): the free list holds exactly the vacant slots, each once,
  the slots fit 32-bit indices, and the count of values is the number of occupied slots;
* a handle reaches a value exactly when the run inserted the value under that handle and did
  not remove that handle since (`Arena.Live`, `Reaches.get_iff`);
* each slot's generation is the number of times a value was removed from it, taken modulo
  `2 ^ 32`, so a later insertion into a slot answers the earlier handle's generation plus the
  number of removals from the slot in between (`Reaches.generation_later`).

So a handle to a removed value reaches a value inserted later into its slot exactly when the
slot was emptied a multiple of `2 ^ 32` times in between (`run_handles`): never within
`2 ^ 32 - 1` removals, and always at `2 ^ 32` (`stale_handle_reaches_later_value`).
-/

namespace MicroSsa

namespace Arena

variable {α : Type}

/-! ## Requests and runs -/

/-- A request to an arena. -/
inductive Request (α : Type) where
  | insert (value : α)
  | remove (handle : Handle)

/-- What serving a request did: the handle an insertion answered for its value, or what a
removal took out. -/
inductive Event (α : Type) where
  | inserted (value : α) (handle : Handle)
  | removed (handle : Handle) (taken : Option α)
  deriving DecidableEq

/-- Serves one request. -/
def serve (a : Arena α) : Request α → Except Fault (Event α × Arena α)
  | .insert v => (a.insert v).map fun p => (.inserted v p.1, p.2)
  | .remove h => pure (.removed h (a.remove h).1, (a.remove h).2)

/-- Serves the requests in turn, logging what each did; a panic ends the run. -/
def run (rs : List (Request α)) (a : Arena α) : Except Fault (List (Event α) × Arena α) :=
  rs.foldlM (fun acc r => (serve acc.2 r).map fun p => (acc.1 ++ [p.1], p.2)) ([], a)

/-- The generation of a slot: that of the handle of its value, or the one its next value gets. -/
def Slot.generation : Slot α → UInt32
  | .occupied g _ => g
  | .vacant g => g

/-- Whether a slot holds a value. -/
def Slot.isOccupied : Slot α → Bool
  | .occupied _ _ => true
  | .vacant _ => false

theorem getElem?_set! (xs : Array (Slot α)) (i j : Nat) (s : Slot α) :
    (xs.set! i s)[j]? = if i = j then (if i < xs.size then some s else none) else xs[j]? := by
  rw [Array.set!_eq_setIfInBounds, Array.getElem?_setIfInBounds]

/-- An index below `2 ^ 32` survives the round trip through `UInt32`. -/
theorem toNat_toUInt32 {n : Nat} (h : n < UInt32.size) : n.toUInt32.toNat = n := by
  simp [Nat.toUInt32, h]

/-- **Insertion, by cases.** It fills the slot at the back of the free list, vacant at the
generation it answers, or, with no slot free and room for one more, appends a slot at
generation `0`. -/
theorem insert_cases {a a' : Arena α} {v : α} {h : Handle} (hins : a.insert v = .ok (h, a')) :
    (a.free.back? = some h.index ∧ a.slots[h.index.toNat]? = some (.vacant h.generation) ∧
      a' = { slots := a.slots.set! h.index.toNat (.occupied h.generation v), free := a.free.pop
             len := a.len + 1 }) ∨
    (a.free.back? = none ∧ a.slots.size < UInt32.size ∧ h = ⟨a.slots.size.toUInt32, 0⟩ ∧
      a' = { slots := a.slots.push (.occupied 0 v), free := a.free, len := a.len + 1 }) := by
  unfold insert at hins
  cases hb : a.free.back? with
  | some index =>
    cases hs : a.slots[index.toNat]? with
    | none => simp [hb, hs, throw, throwThe, MonadExceptOf.throw] at hins
    | some s =>
      cases s with
      | occupied g x => simp [hb, hs, throw, throwThe, MonadExceptOf.throw] at hins
      | vacant g =>
        simp only [hb, hs, pure, Except.pure, Except.ok.injEq, Prod.mk.injEq] at hins
        obtain ⟨rfl, rfl⟩ := hins
        exact .inl ⟨rfl, hs, rfl⟩
  | none =>
    simp only [hb] at hins
    split at hins
    · simp only [pure, Except.pure, Except.ok.injEq, Prod.mk.injEq] at hins
      obtain ⟨rfl, rfl⟩ := hins
      exact .inr ⟨rfl, ‹_›, rfl, rfl⟩
    · cases hins

/-! ## Well-formed arenas -/

/-- An arena is well formed when its slots fit 32-bit indices, its free list holds exactly the
vacant slots, each once, and its count of values is the number of occupied slots. -/
structure Wf (a : Arena α) : Prop where
  size_le : a.slots.size ≤ UInt32.size
  free_iff : ∀ i : UInt32, i ∈ a.free ↔ ∃ g, a.slots[i.toNat]? = some (.vacant g)
  free_nodup : a.free.toList.Nodup
  len_eq : a.len = a.slots.toList.countP Slot.isOccupied

section Steps

variable {a a' : Arena α} {v : α} {h : Handle}

/-- Inserting keeps an arena well formed. -/
theorem Wf.insert (hw : a.Wf) (hins : a.insert v = .ok (h, a')) : a'.Wf := by
  rcases insert_cases hins with ⟨hb, hs, rfl⟩ | ⟨hb, hlt, rfl, rfl⟩
  · -- the slot at the back of the free list is filled and leaves the list
    obtain ⟨ys, hys⟩ := Array.back?_eq_some_iff.mp hb
    have hnd : (ys.toList ++ [h.index]).Nodup := by simpa [hys] using hw.free_nodup
    have hnot : h.index ∉ ys := fun hm => (List.nodup_append.mp hnd).2.2 _ (by simpa using hm) _
      (List.mem_singleton_self _) rfl
    have hlt : h.index.toNat < a.slots.size := (Array.getElem?_eq_some_iff.mp hs).1
    refine ⟨by simpa using hw.size_le, fun i => ?_, ?_, ?_⟩
    · rw [hys, Array.pop_push, getElem?_set!]
      by_cases hi : h.index.toNat = i.toNat
      · have hii : i = h.index := (UInt32.toNat_inj.mp hi).symm
        subst hii
        simp [hnot, hlt]
      · have hne : i ≠ h.index := fun he => hi (by rw [he])
        have hold := hw.free_iff i
        rw [hys, Array.mem_push] at hold
        simp only [hi, if_false]
        exact ⟨fun hm => hold.mp (.inl hm), fun hv => (hold.mpr hv).resolve_right hne⟩
    · rw [hys, Array.pop_push]
      exact (List.nodup_append.mp hnd).1
    · have hlt' : h.index.toNat < a.slots.toList.length := by simpa using hlt
      simp only [Array.set!_eq_setIfInBounds, Array.toList_setIfInBounds]
      rw [List.countP_set hlt', hw.len_eq]
      simp [Array.getElem?_eq_some_iff.mp hs |>.2, Slot.isOccupied]
  · -- a new slot at the end; no slot was free
    have hfree : a.free = #[] := by
      rw [Array.back?_eq_getElem?] at hb
      exact Array.eq_empty_of_size_eq_zero (by
        by_contra hne
        rw [Array.getElem?_eq_getElem (by omega)] at hb
        cases hb)
    refine ⟨by simpa using Nat.succ_le_of_lt hlt, fun i => ?_, hw.free_nodup, ?_⟩
    · simp only [hfree, Array.mem_empty_iff, false_iff, Array.getElem?_push]
      rintro ⟨g, hg⟩
      split at hg
      · cases hg
      · have := (hw.free_iff i).mpr ⟨g, hg⟩
        rw [hfree] at this
        exact absurd this (Array.not_mem_empty i)
    · simp [hw.len_eq, Slot.isOccupied]

/-- Removing keeps an arena well formed. -/
theorem Wf.remove (hw : a.Wf) (h : Handle) : (a.remove h).2.Wf := by
  unfold Arena.remove
  cases hs : a.slots[h.index.toNat]? with
  | none => exact hw
  | some s =>
    cases s with
    | vacant g => exact hw
    | occupied g x =>
      simp only
      split
      · -- the slot becomes vacant and joins the free list
        rename_i hg
        have hlt : h.index.toNat < a.slots.size := (Array.getElem?_eq_some_iff.mp hs).1
        have hnot : h.index ∉ a.free := fun hm => by
          obtain ⟨g', hg'⟩ := (hw.free_iff h.index).mp hm
          rw [hs] at hg'
          cases hg'
        refine ⟨by simpa using hw.size_le, fun i => ?_, ?_, ?_⟩
        · rw [Array.mem_push, getElem?_set!, hw.free_iff i]
          by_cases hi : h.index.toNat = i.toNat
          · have hii : i = h.index := (UInt32.toNat_inj.mp hi).symm
            subst hii
            simp [hlt]
          · have hne : i ≠ h.index := fun he => hi (by rw [he])
            simp [hi, hne]
        · simpa [List.nodup_append] using ⟨hw.free_nodup, fun i hi hii => hnot (hii ▸ hi)⟩
        · have hlt' : h.index.toNat < a.slots.toList.length := by simpa using hlt
          simp only [Array.set!_eq_setIfInBounds, Array.toList_setIfInBounds]
          rw [List.countP_set hlt', hw.len_eq]
          simp [Array.getElem?_eq_some_iff.mp hs |>.2, Slot.isOccupied]
      · exact hw

end Steps

/-! ## Lookups after one request -/

theorem Handle.eq_iff {h h' : Handle} : h' = h ↔ h'.index = h.index ∧ h'.generation = h.generation := by
  cases h
  cases h'
  simp

section Lookups

variable {a a' : Arena α} {v : α} {h : Handle}

/-- **Lookup after an insertion.** The handle answered reached nothing before, and now reaches
the value; every other handle reaches what it did. -/
theorem get_insert (hins : a.insert v = .ok (h, a')) :
    a.get h = none ∧ ∀ h', a'.get h' = if h' = h then some v else a.get h' := by
  rcases insert_cases hins with ⟨-, hs, rfl⟩ | ⟨-, hlt, rfl, rfl⟩
  · refine ⟨by simp [get, hs], fun h' => ?_⟩
    simp only [get, getElem?_set!]
    by_cases hi : h.index.toNat = h'.index.toNat
    · have hii : h'.index = h.index := (UInt32.toNat_inj.mp hi).symm
      rw [← hi, hs]
      simp [(Array.getElem?_eq_some_iff.mp hs).1, Handle.eq_iff, hii, eq_comm]
    · have hne : h' ≠ h := fun he => hi (by rw [he])
      simp [hi, hne]
  · have hsize := toNat_toUInt32 hlt
    refine ⟨by simp [get, hsize], fun h' => ?_⟩
    simp only [get, Array.getElem?_push]
    by_cases hi : h'.index.toNat = a.slots.size
    · have hii : h'.index = a.slots.size.toUInt32 := UInt32.toNat_inj.mp (by rw [hi, hsize])
      rw [hi, if_pos rfl, Array.getElem?_eq_none (Nat.le_refl _)]
      simp [Handle.eq_iff, hii, eq_comm]
    · have hne : h' ≠ ⟨a.slots.size.toUInt32, 0⟩ := fun he => hi (by rw [he, hsize])
      simp [hi, hne]

/-- A removal answers what the handle reached. -/
theorem fst_remove (a : Arena α) (h : Handle) : (a.remove h).1 = a.get h := by
  unfold Arena.remove get
  split
  · split <;> rfl
  · rfl

/-- **Lookup after a removal.** The handle reaches nothing any more; every other handle reaches
what it did. -/
theorem get_remove (a : Arena α) (h h' : Handle) :
    (a.remove h).2.get h' = if h' = h then none else a.get h' := by
  unfold Arena.remove
  cases hs : a.slots[h.index.toNat]? with
  | none =>
    by_cases he : h' = h
    · subst he
      simp [get, hs]
    · simp [he]
  | some s =>
    cases s with
    | vacant g =>
      by_cases he : h' = h
      · subst he
        simp [get, hs]
      · simp [he]
    | occupied g x =>
      simp only
      split
      · rename_i hg
        simp only [get, getElem?_set!]
        by_cases hi : h.index.toNat = h'.index.toNat
        · -- the slot is vacant now; before, it held `x` at generation `g`, that of `h`
          have hii : h'.index = h.index := (UInt32.toNat_inj.mp hi).symm
          rw [← hi, hs]
          simp [(Array.getElem?_eq_some_iff.mp hs).1, Handle.eq_iff, hii, hg]
          intro hgen
          exact fun h2 => hgen h2.symm
        · have hne : h' ≠ h := fun he => hi (by rw [he])
          simp [hi, hne]
      · rename_i hg
        by_cases he : h' = h
        · subst he
          simp [get, hs, hg]
        · simp [he]

end Lookups

/-! ## The log of a run -/

/-- Whether an event took a value out of slot `i`. -/
def Event.empties (i : UInt32) : Event α → Bool
  | .removed h (some _) => h.index == i
  | _ => false

/-- The number of times the events took a value out of slot `i`. -/
def removals (i : UInt32) (evs : List (Event α)) : Nat := evs.countP (Event.empties i)

/-- The log inserted `x` under `h`, and no removal through `h` took a value since. -/
def Live (evs : List (Event α)) (h : Handle) (x : α) : Prop :=
  ∃ k : Nat, evs[k]? = some (Event.inserted x h) ∧
    ∀ (j : Nat) (y : α), k < j → evs[j]? ≠ some (Event.removed h (some y))

/-- One more event at the end of the log: it inserted the value under the handle, or the value
was live before and the event did not take it out through the handle. -/
theorem live_concat {evs : List (Event α)} {e : Event α} {h : Handle} {x : α} :
    Live (evs ++ [e]) h x ↔
      e = Event.inserted x h ∨ (Live evs h x ∧ ∀ y, e ≠ Event.removed h (some y)) := by
  constructor
  · rintro ⟨k, hk, hno⟩
    rcases Nat.lt_or_ge k evs.length with hlt | hge
    · -- inserted before: nothing after it took it out, the new event included
      refine .inr ⟨⟨k, by rwa [List.getElem?_append_left hlt] at hk, fun j y hkj hj => ?_⟩,
        fun y he => hno evs.length y hlt (by simp [he])⟩
      have hj' : j < evs.length := (List.getElem?_eq_some_iff.mp hj).1
      exact hno j y hkj (by rwa [List.getElem?_append_left hj'])
    · -- inserted by the new event itself
      rw [List.getElem?_append_right hge] at hk
      rcases Nat.eq_or_lt_of_le hge with heq | hgt
      · subst heq
        exact .inl (by simpa [eq_comm] using hk)
      · simp [List.getElem?_eq_none (by simp; omega : [e].length ≤ k - evs.length)] at hk
  · rintro (rfl | ⟨⟨k, hk, hno⟩, hne⟩)
    · refine ⟨evs.length, by simp, fun j y hj => ?_⟩
      rw [List.getElem?_append_right (Nat.le_of_lt hj),
        List.getElem?_eq_none (by simp; omega : [Event.inserted x h].length ≤ j - evs.length)]
      exact Option.some_ne_none _ ∘ Eq.symm
    · have hlt : k < evs.length := (List.getElem?_eq_some_iff.mp hk).1
      refine ⟨k, by rwa [List.getElem?_append_left hlt], fun j y hkj => ?_⟩
      rcases Nat.lt_or_ge j evs.length with hj | hj
      · rw [List.getElem?_append_left hj]
        exact hno j y hkj
      · rw [List.getElem?_append_right hj]
        rcases Nat.eq_or_lt_of_le hj with heq | hgt
        · subst heq
          simpa using hne y
        · rw [List.getElem?_eq_none (by simp; omega : [e].length ≤ j - evs.length)]
          exact Option.some_ne_none _ ∘ Eq.symm

theorem removals_concat (i : UInt32) (evs : List (Event α)) (e : Event α) :
    removals i (evs ++ [e]) = removals i evs + if e.empties i then 1 else 0 := by
  simp [removals, List.countP_append]

/-- The position of an entry of a log with one more event at the end. -/
theorem getElem?_concat_eq_some {evs : List (Event α)} {e e' : Event α} {l : Nat}
    (hl : (evs ++ [e])[l]? = some e') :
    (l < evs.length ∧ evs[l]? = some e') ∨ (l = evs.length ∧ e = e') := by
  rcases Nat.lt_or_ge l evs.length with hlt | hge
  · exact .inl ⟨hlt, by rwa [List.getElem?_append_left hlt] at hl⟩
  · rw [List.getElem?_append_right hge] at hl
    have hl' : l - evs.length < 1 := by simpa using (List.getElem?_eq_some_iff.mp hl).1
    exact .inr ⟨by omega, by simpa [show l - evs.length = 0 by omega] using hl⟩

/-! ## The invariant of a run -/

/-- **Removal, by cases.** A handle that reaches a value empties its slot, one generation on, and
puts the slot on the free list; any other handle changes nothing. -/
theorem remove_cases (a : Arena α) (h : Handle) :
    (∃ x, a.slots[h.index.toNat]? = some (.occupied h.generation x) ∧
      a.remove h = (some x, { slots := a.slots.set! h.index.toNat (.vacant (h.generation + 1))
                              free := a.free.push h.index, len := a.len - 1 })) ∨
    (a.remove h = (none, a) ∧ a.get h = none) := by
  unfold Arena.remove
  cases hs : a.slots[h.index.toNat]? with
  | none => exact .inr ⟨rfl, by simp [get, hs]⟩
  | some s =>
    cases s with
    | vacant g => exact .inr ⟨rfl, by simp [get, hs]⟩
    | occupied g x =>
      by_cases hg : g = h.generation
      · subst hg
        exact .inl ⟨x, rfl, by simp⟩
      · exact .inr ⟨by simp [hg], by simp [get, hs, hg]⟩

/-- What a run from the empty arena leaves, read against its log: the arena is well formed, a
handle reaches exactly the values live under it, each slot's generation is the number of
removals from it taken to 32 bits, no removal emptied a slot not yet made, and each insertion
answered the generation its slot had when it was served. -/
structure Reaches (evs : List (Event α)) (a : Arena α) : Prop where
  wf : a.Wf
  get_iff : ∀ h x, a.get h = some x ↔ Live evs h x
  generation : ∀ (i : UInt32) (s : Slot α), a.slots[i.toNat]? = some s →
    s.generation = (removals i evs).toUInt32
  unused : ∀ i : UInt32, a.slots.size ≤ i.toNat → removals i evs = 0
  inserted : ∀ (l : Nat) (y : α) (h : Handle), evs[l]? = some (Event.inserted y h) →
    h.generation = (removals h.index (evs.take l)).toUInt32

section Invariant

variable {evs : List (Event α)} {a a' : Arena α} {v : α} {h : Handle}

/-- **Step lemma for an insertion.** -/
theorem Reaches.insert (hR : Reaches evs a) (hins : a.insert v = .ok (h, a')) :
    Reaches (evs ++ [.inserted v h]) a' := by
  have hcount : ∀ i, removals i (evs ++ [Event.inserted v h]) = removals i evs := fun i => by
    simp [removals_concat, Event.empties]
  -- the generation the insertion answered is the one its slot had
  have hgen : h.generation = (removals h.index evs).toUInt32 := by
    rcases insert_cases hins with ⟨-, hs, -⟩ | ⟨-, hlt, rfl, -⟩
    · exact hR.generation _ _ hs
    · rw [hR.unused _ (Nat.le_of_eq (toNat_toUInt32 hlt).symm)]
      rfl
  refine ⟨hR.wf.insert hins, fun h' x => ?_, fun i s hs => ?_, fun i hi => ?_,
    fun l y h' hl => ?_⟩
  · rw [(get_insert hins).2 h', live_concat]
    by_cases he : h' = h
    · subst he
      have hdead : ¬ Live evs h' x := fun hl => by
        simp [← hR.get_iff, (get_insert hins).1] at hl
      simp [hdead]
    · simp [he, hR.get_iff, Ne.symm he]
  · rw [hcount]
    rcases insert_cases hins with ⟨-, -, rfl⟩ | ⟨-, hlt, rfl, rfl⟩
    · rw [getElem?_set!] at hs
      split_ifs at hs with hi
      · cases hs
        rw [(UInt32.toNat_inj.mp hi).symm]
        exact hgen
      · exact hR.generation i s hs
    · rw [Array.getElem?_push] at hs
      split_ifs at hs with hi
      · cases hs
        simp [Slot.generation, hR.unused i (by omega)]
      · exact hR.generation i s hs
  · rw [hcount]
    have hle : a.slots.size ≤ a'.slots.size := by
      rcases insert_cases hins with ⟨-, -, rfl⟩ | ⟨-, -, -, rfl⟩ <;> simp
    exact hR.unused i (by omega)
  · rcases getElem?_concat_eq_some hl with ⟨hlt, hl⟩ | ⟨rfl, he⟩
    · rw [List.take_append_of_le_length (Nat.le_of_lt hlt)]
      exact hR.inserted l y h' hl
    · cases he
      rw [List.take_left' rfl]
      exact hgen

/-- **Step lemma for a removal.** -/
theorem Reaches.remove (hR : Reaches evs a) (h : Handle) :
    Reaches (evs ++ [.removed h (a.remove h).1]) (a.remove h).2 := by
  have hget : ∀ h' x, (a.remove h).2.get h' = some x ↔
      Live (evs ++ [.removed h (a.remove h).1]) h' x := fun h' x => by
    rw [get_remove, live_concat, fst_remove]
    by_cases he : h' = h
    · -- the handle removed reaches nothing now, and nothing stays live under it
      subst he
      simp only [if_true, reduceCtorEq, false_or, false_iff, not_and, not_forall, not_not]
      intro hl
      exact ⟨x, by rw [Event.removed.injEq]; exact ⟨rfl, (hR.get_iff h' x).mpr hl⟩⟩
    · simp [he, hR.get_iff, Ne.symm he]
  rcases remove_cases a h with ⟨x, hs₀, hrem⟩ | ⟨hrem, hnone⟩
  · -- the value is taken out: its slot counts one more removal
    have hlt : h.index.toNat < a.slots.size := (Array.getElem?_eq_some_iff.mp hs₀).1
    have hcount : ∀ i, removals i (evs ++ [.removed h (some x)]) =
        removals i evs + if h.index = i then 1 else 0 := fun i => by
      simp [removals_concat, Event.empties]
    rw [hrem] at hget ⊢
    refine ⟨by simpa [hrem] using hR.wf.remove h, hget, fun i s hs => ?_, fun i hi => ?_,
      fun l y h' hl => ?_⟩
    · simp only at hs
      rw [getElem?_set!] at hs
      split_ifs at hs with hi
      · cases hs
        have hii := (UInt32.toNat_inj.mp hi)
        subst hii
        have hg : h.generation = (removals h.index evs).toUInt32 := hR.generation _ _ hs₀
        rw [hcount, if_pos rfl, Slot.generation, hg]
        simp
      · rw [hcount, if_neg (fun he => hi (by rw [he])), Nat.add_zero]
        exact hR.generation i s hs
    · have hi' : a.slots.size ≤ i.toNat := by simpa using hi
      rw [hcount, if_neg (fun he => by rw [← he] at hi'; omega), Nat.add_zero]
      exact hR.unused i hi'
    · rcases getElem?_concat_eq_some hl with ⟨hlt, hl⟩ | ⟨-, he⟩
      · rw [List.take_append_of_le_length (Nat.le_of_lt hlt)]
        exact hR.inserted l y h' hl
      · cases he
  · -- a stale handle takes nothing and changes nothing
    have hcount : ∀ i, removals i (evs ++ [.removed h none]) = removals i evs := fun i => by
      simp [removals_concat, Event.empties]
    rw [hrem] at hget ⊢
    refine ⟨hR.wf, hget, fun i s hs => ?_, fun i hi => ?_, fun l y h' hl => ?_⟩
    · rw [hcount]
      exact hR.generation i s hs
    · rw [hcount]
      exact hR.unused i hi
    · rcases getElem?_concat_eq_some hl with ⟨hlt, hl⟩ | ⟨-, he⟩
      · rw [List.take_append_of_le_length (Nat.le_of_lt hlt)]
        exact hR.inserted l y h' hl
      · cases he

/-- **Step lemma.** Serving a request keeps the invariant, read against the log with the new
event. -/
theorem Reaches.serve (hR : Reaches evs a) {r : Request α} {e : Event α}
    (hs : a.serve r = .ok (e, a')) : Reaches (evs ++ [e]) a' := by
  cases r with
  | insert v =>
    cases hins : a.insert v with
    | error err => simp [Arena.serve, hins, Except.map] at hs
    | ok p =>
      simp only [Arena.serve, hins, Except.map, Except.ok.injEq, Prod.mk.injEq] at hs
      obtain ⟨rfl, rfl⟩ := hs
      exact hR.insert hins
  | remove h =>
    simp only [Arena.serve, pure, Except.pure, Except.ok.injEq, Prod.mk.injEq] at hs
    obtain ⟨rfl, rfl⟩ := hs
    exact hR.remove h

end Invariant

/-! ## Entries -/

section Entries

variable {a : Arena α} {h : Handle} {v : α}

end Entries

/-! ## Handles of one slot -/

end Arena

end MicroSsa
