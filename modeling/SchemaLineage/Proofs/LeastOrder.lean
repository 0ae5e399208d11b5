import SchemaLineage.Proofs.FieldOrdering

/-!
Which of the common orders is chosen. An order of all ranks is consistent if it shows the fields of
each version in their own order. Of the ranks that may come first in such an order, placing takes
the least one; as this holds again for what is left, the order found is the least one of all. The
counts of edges are exact while ranks are placed, so no count is ever taken below zero.
-/
namespace SchemaLineage

namespace FieldOrder

variable {edges : List (Nat × Nat)} {pending ranks : List Nat} {count : Nat → Nat}

def decrement? (count : Nat → Nat) (rank : Nat) : Option (Nat → Nat) :=
  if count rank = 0 then none else some (decrement count rank)

def release? (edges : List (Nat × Nat)) (rank : Nat) (count : Nat → Nat) : Option (Nat → Nat) :=
  ((edges.filter (·.1 = rank)).map (·.2)).foldlM decrement? count

/-- Places the pending ranks, as long as no count would have to go below zero. -/
def place? (edges : List (Nat × Nat)) (pending : List Nat) (count : Nat → Nat) :
    Option (List Nat × List Nat) :=
  match _hnext : pending.find? (count · = 0) with
  | none => some ([], pending)
  | some rank => do
    let released ← release? edges rank count
    let (order, stuck) ← place? edges (pending.erase rank) released
    return (rank :: order, stuck)
termination_by pending.length
decreasing_by
  have hmem := List.mem_of_find?_eq_some _hnext
  have := List.length_erase_of_mem hmem
  have := List.length_pos_of_mem hmem
  omega

theorem foldlM_decrement? {targets : List Nat} (h : ∀ r, targets.count r ≤ count r) :
    targets.foldlM decrement? count = some (targets.foldl decrement count) := by
  induction targets generalizing count with
  | nil => rfl
  | cons t targets ih =>
    have hpos : count t ≠ 0 := by
      have := h t
      rw [List.count_cons_self] at this
      omega
    have hrest : ∀ r, targets.count r ≤ decrement count t r := by
      intro r
      have := h r
      rw [List.count_cons] at this
      rw [decrement]
      split
      · rename_i hr
        simp only [hr, beq_self_eq_true, if_true] at this ⊢
        omega
      · omega
    rw [List.foldlM_cons, decrement?, if_neg hpos, List.foldl_cons, ← ih hrest]
    rfl

/-- Exact counts hold every edge that a placed rank takes away. -/
theorem release?_eq {rank : Nat} (hcounts : Counts edges pending count) (hmem : rank ∈ pending) :
    release? edges rank count = some (release edges rank count) := by
  refine foldlM_decrement? fun r => ?_
  rw [hcounts r, List.count, List.countP_map, List.countP_filter]
  apply List.countP_mono_left
  intro e _ he
  simp only [Function.comp_apply, Bool.and_eq_true, beq_iff_eq, decide_eq_true_eq] at he
  simpa [he.1, he.2] using hmem

/-- No count goes below zero while ranks are placed. -/
theorem place?_eq (hnodup : pending.Nodup) (hcounts : Counts edges pending count) :
    place? edges pending count = some (place edges pending count) := by
  induction hlen : pending.length generalizing pending count with
  | zero =>
    obtain rfl : pending = [] := List.length_eq_zero_iff.1 hlen
    rw [place?, place_eq]
    rfl
  | succ n ih =>
    rw [place?, place_eq]
    split
    · rename_i hfind
      rw [hfind]
    · rename_i rank hfind
      have hmem := List.mem_of_find?_eq_some hfind
      have hrest := ih (hnodup.erase rank) (counts_release hcounts hnodup hmem)
        (by rw [List.length_erase_of_mem hmem]; omega)
      rw [hfind, release?_eq hcounts hmem, Option.bind_eq_bind, Option.bind_some, hrest]
      rfl

/-- In an order in which the edges lead forward, no edge leads to the first rank. -/
theorem count_head_eq_zero {b : Nat} (hcounts : Counts edges pending count)
    (hperm : (b :: ranks).Perm pending) (hnodup : pending.Nodup)
    (hforward : ∀ e ∈ edges, e.1 ∈ pending → e.2 ∈ pending → [e.1, e.2].Sublist (b :: ranks)) :
    count b = 0 := by
  have hb : b ∈ pending := hperm.mem_iff.1 List.mem_cons_self
  have hbnot : b ∉ ranks := (List.nodup_cons.1 (hperm.nodup_iff.2 hnodup)).1
  rw [hcounts b, List.countP_eq_zero]
  intro e he hlead
  obtain ⟨htarget, hsource⟩ : e.2 = b ∧ e.1 ∈ pending := by simpa using hlead
  have hsub := hforward e he hsource (htarget ▸ hb)
  rw [htarget] at hsub
  -- Whichever rank stands before `b`, the rank `b` would come again.
  cases hsub with
  | cons _ hsub => exact hbnot (hsub.subset (by simp))
  | cons_cons _ hsub => exact hbnot (hsub.subset (by simp))

theorem find?_le {p : Nat → Bool} {rank b : Nat} (hsorted : pending.Pairwise (· < ·))
    (hfind : pending.find? p = some rank) (hb : b ∈ pending) (hp : p b = true) : rank ≤ b := by
  obtain ⟨-, before, after, rfl, hbefore⟩ := List.find?_eq_some_iff_append.1 hfind
  rcases List.mem_append.1 hb with hb | hb
  · simpa [hp] using hbefore b hb
  · rcases List.mem_cons.1 hb with rfl | hb
    · exact Nat.le_refl _
    · exact Nat.le_of_lt ((List.pairwise_cons.1 (List.pairwise_append.1 hsorted).2.1).1 b hb)

/-- No order in which the edges lead forward comes before the one that placing finds. -/
theorem place_least (hsorted : pending.Pairwise (· < ·)) (hcounts : Counts edges pending count)
    (hperm : ranks.Perm pending)
    (hforward : ∀ e ∈ edges, e.1 ∈ pending → e.2 ∈ pending → [e.1, e.2].Sublist ranks) :
    (place edges pending count).1 = ranks ∨
      List.Lex (· < ·) (place edges pending count).1 ranks := by
  induction ranks generalizing pending count with
  | nil =>
    obtain rfl : pending = [] := hperm.symm.eq_nil
    rw [place_eq]
    exact Or.inl rfl
  | cons b ranks ih =>
    have hnodup : pending.Nodup := hsorted.imp Nat.ne_of_lt
    have hb : b ∈ pending := hperm.mem_iff.1 List.mem_cons_self
    have hzero := count_head_eq_zero hcounts hperm hnodup hforward
    rw [place_eq]
    cases hfind : pending.find? (count · = 0) with
    | none =>
      have := List.find?_eq_none.1 hfind b hb
      simp [hzero] at this
    | some rank =>
      have hmem := List.mem_of_find?_eq_some hfind
      have hle : rank ≤ b := find?_le hsorted hfind hb (by simpa using hzero)
      rcases Nat.lt_or_eq_of_le hle with hlt | rfl
      · exact Or.inr (.rel hlt)
      · have hforward' : ∀ e ∈ edges, e.1 ∈ pending.erase rank → e.2 ∈ pending.erase rank →
            [e.1, e.2].Sublist ranks := by
          intro e he hsource htarget
          have hsub := hforward e he (List.mem_of_mem_erase hsource)
            (List.mem_of_mem_erase htarget)
          cases hsub with
          | cons _ hsub => exact hsub
          | cons_cons _ _ => exact absurd rfl (hnodup.mem_erase_iff.1 hsource).1
        have hrest := ih (hsorted.sublist List.erase_sublist)
          (counts_release hcounts hnodup hmem)
          (List.cons_perm_iff_perm_erase.1 hperm).2 hforward'
        rcases hrest with heq | hlex
        · exact Or.inl (congrArg (rank :: ·) heq)
        · exact Or.inr (.cons hlex)

end FieldOrder

namespace FieldShapes

def fieldsAt (shapes : FieldShapes) (ranks : List Nat) : List Field :=
  (ranks.filterMap shapes.get?).map Span.value

theorem map_idxOf_fieldsAt (h : History) {ranks : List Nat}
    (hranks : ∀ r ∈ ranks, r < (ofHistory h).size) :
    ((ofHistory h).fieldsAt ranks).map (ofHistory h).values.idxOf = ranks := by
  induction ranks with
  | nil => rfl
  | cons r ranks ih =>
    have hr : r < (ofHistory h).entries.length := hranks r List.mem_cons_self
    have hrest := ih fun r hr => hranks r (List.mem_cons_of_mem _ hr)
    have hidx : (ofHistory h).values.idxOf (ofHistory h).entries[r].value = r := by
      have hlt : r < (ofHistory h).values.length := by simpa [values] using hr
      have hget : (ofHistory h).values[r] = (ofHistory h).entries[r].value := by simp [values]
      rw [← hget]
      exact (nodup_values h).idxOf_getElem r hlt
    have hsome : (ofHistory h).get? r = some (ofHistory h).entries[r] :=
      List.getElem?_eq_getElem hr
    rw [fieldsAt, List.filterMap_cons_some hsome, List.map_cons, List.map_cons, hidx]
    exact congrArg (r :: ·) hrest

end FieldShapes

namespace FieldOrder

variable {h : History} {ranks : List Nat}

/-- An order of all ranks that shows the fields of each version in their own order. -/
structure Consistent (h : History) (ranks : List Nat) : Prop where
  perm : ranks.Perm (List.range (FieldShapes.ofHistory h).size)
  sublist : ∀ e ∈ h.entries, e.2.fields.Sublist ((FieldShapes.ofHistory h).fieldsAt ranks)

theorem Consistent.edge_sublist (hc : Consistent h ranks) {p : Nat × Nat}
    (hp : p ∈ edges h (FieldShapes.ofHistory h)) : [p.1, p.2].Sublist ranks := by
  obtain ⟨e, he, hp⟩ := mem_edges.1 hp
  have hranks : ∀ r ∈ ranks, r < (FieldShapes.ofHistory h).size :=
    fun r hr => List.mem_range.1 (hc.perm.mem_iff.1 hr)
  have hsub := (hc.sublist e he).map (FieldShapes.ofHistory h).values.idxOf
  rw [FieldShapes.map_idxOf_fieldsAt h hranks] at hsub
  exact (sublist_of_mem_neighbours hp).trans hsub

/-- What is placed of the shapes of a history is the order found for them. -/
theorem order_eq_ok_iff :
    order h (FieldShapes.ofHistory h) = .ok ranks ↔
      place (edges h (FieldShapes.ofHistory h)) (List.range (FieldShapes.ofHistory h).size)
        (indegree (edges h (FieldShapes.ofHistory h))) = (ranks, []) := by
  rw [order_eq]
  simp only
  generalize place _ _ _ = result
  obtain ⟨placed, stuck⟩ := result
  by_cases hstuck : stuck = [] <;> simp [hstuck]

theorem consistent_of_order (hok : order h (FieldShapes.ofHistory h) = .ok ranks) :
    Consistent h ranks := by
  have hplaced := placed_shapes h
  simp only [order_eq_ok_iff.1 hok] at hplaced
  have hperm : ranks.Perm (List.range (FieldShapes.ofHistory h).size) := by
    simpa using hplaced.perm
  refine ⟨hperm, fun e he => ?_⟩
  have hsub := hplaced.sublist (isChain_fields he)
    fun r hr => hperm.mem_iff.2 (mem_range_of_mem_fields he hr)
  have hfields := (hsub.filterMap (FieldShapes.ofHistory h).get?).map Span.value
  rwa [Merge.map_value_fields he] at hfields

/-- If there is a consistent order, one is found. -/
theorem Consistent.exists_order (hc : Consistent h ranks) :
    ∃ found, order h (FieldShapes.ofHistory h) = .ok found := by
  have hnodup : ranks.Nodup := hc.perm.nodup_iff.2 List.nodup_range
  have hstuck := (placed_shapes h).stuck_eq_nil hnodup fun p hp => hc.edge_sublist hp
  exact ⟨_, order_eq_ok_iff.2 (Prod.ext rfl hstuck)⟩

/-- No consistent order comes before the one that is found. -/
theorem Consistent.order_least (hc : Consistent h ranks) {found : List Nat}
    (hok : order h (FieldShapes.ofHistory h) = .ok found) :
    found = ranks ∨ List.Lex (· < ·) found ranks := by
  have hleast := place_least List.pairwise_lt_range (counts_indegree h) hc.perm
    fun p hp _ _ => hc.edge_sublist hp
  rwa [order_eq_ok_iff.1 hok] at hleast

/-- First-seen order itself comes before every other order of all ranks. -/
theorem not_lex_of_sorted {sorted : List Nat} (hsorted : sorted.Pairwise (· < ·))
    (hperm : ranks.Perm sorted) : ¬ List.Lex (· < ·) ranks sorted := by
  intro hlex
  induction hlex with
  | nil => simpa using hperm.length_eq
  | rel hlt =>
    rcases List.mem_cons.1 (hperm.mem_iff.1 List.mem_cons_self) with heq | hmem
    · exact absurd hlt (heq ▸ Nat.lt_irrefl _)
    · exact absurd hlt (Nat.lt_asymm ((List.pairwise_cons.1 hsorted).1 _ hmem))
  | cons _ ih => exact ih (List.pairwise_cons.1 hsorted).2 ((List.perm_cons _).1 hperm)

/-- Shapes have an order exactly if they have a consistent one, and it is the least of these, with
first-seen ranks compared from the front. It is found without taking a count below zero. -/
theorem order_is_least (h : History) :
    ((∃ ranks, order h (FieldShapes.ofHistory h) = .ok ranks) ↔ ∃ ranks, Consistent h ranks) ∧
      (∀ ranks, order h (FieldShapes.ofHistory h) = .ok ranks →
        Consistent h ranks ∧
          ∀ other, Consistent h other → ranks = other ∨ List.Lex (· < ·) ranks other) ∧
      (Consistent h (List.range (FieldShapes.ofHistory h).size) →
        order h (FieldShapes.ofHistory h) =
          .ok (List.range (FieldShapes.ofHistory h).size)) ∧
      place? (edges h (FieldShapes.ofHistory h)) (List.range (FieldShapes.ofHistory h).size)
          (indegree (edges h (FieldShapes.ofHistory h))) =
        some (place (edges h (FieldShapes.ofHistory h))
          (List.range (FieldShapes.ofHistory h).size)
          (indegree (edges h (FieldShapes.ofHistory h)))) := by
  refine ⟨⟨?_, ?_⟩, ?_, ?_, ?_⟩
  · rintro ⟨ranks, hok⟩
    exact ⟨ranks, consistent_of_order hok⟩
  · rintro ⟨ranks, hc⟩
    exact hc.exists_order
  · intro ranks hok
    exact ⟨consistent_of_order hok, fun other hother => hother.order_least hok⟩
  · intro hfirst
    obtain ⟨ranks, hok⟩ := hfirst.exists_order
    have hnot := not_lex_of_sorted List.pairwise_lt_range (consistent_of_order hok).perm
    rw [hok, (hfirst.order_least hok).resolve_right hnot]
  · exact place?_eq List.nodup_range (counts_indegree h)

/-- A triangle that is named by its first and last corner, and then by all three. -/
def triangleHistory : History :=
  ⟨"triangle", [
    (⟨[1]⟩, ⟨"triangle", .product, .root, [⟨"int", "a", .required⟩, ⟨"int", "c", .required⟩]⟩),
    (⟨[2]⟩, ⟨"triangle", .product, .root,
      [⟨"int", "a", .required⟩, ⟨"int", "b", .required⟩, ⟨"int", "c", .required⟩]⟩)]⟩

def fullTriangleHistory : History :=
  ⟨"triangle", triangleHistory.entries.drop 1⟩

theorem order_triangleHistory :
    order triangleHistory (FieldShapes.ofHistory triangleHistory) = .ok [0, 2, 1] ∧
      (Consistent triangleHistory [0, 2, 1] ∧ ∀ other, Consistent triangleHistory other →
        [0, 2, 1] = other ∨ List.Lex (· < ·) [0, 2, 1] other) ∧
      Consistent fullTriangleHistory (List.range 3) ∧
      order fullTriangleHistory (FieldShapes.ofHistory fullTriangleHistory) = .ok [0, 1, 2] := by
  have hok : order triangleHistory (FieldShapes.ofHistory triangleHistory) = .ok [0, 2, 1] := by
    decide +kernel
  have hfirst : Consistent fullTriangleHistory (List.range 3) :=
    ⟨by decide +kernel, by decide +kernel⟩
  exact ⟨hok, (order_is_least triangleHistory).2.1 _ hok, hfirst,
    (order_is_least fullTriangleHistory).2.2.1 hfirst⟩

end FieldOrder

end SchemaLineage
