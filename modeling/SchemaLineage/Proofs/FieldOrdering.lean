import SchemaLineage.Lineage.Merge
import SchemaLineage.Proofs.Histories

/-!
The order of field shapes. While ranks are placed, the counts say how many edges still lead to each
rank from one that is not placed; a rank is placed when there is none. So no edge leads back in the
placed part, and each rank that stays is led to by another one that stays. Main statements: fields
that could be ordered hold every version's fields as a subsequence, and where they could not, no
such order exists.
-/
namespace SchemaLineage

namespace FieldOrder

variable {edges : List (Nat × Nat)} {pending : List Nat} {count : Nat → Nat}

/-- The counts are those of the edges from ranks that are not placed yet. -/
def Counts (edges : List (Nat × Nat)) (pending : List Nat) (count : Nat → Nat) : Prop :=
  ∀ r, count r = edges.countP fun e => e.2 = r ∧ e.1 ∈ pending

theorem foldl_decrement (targets : List Nat) (count : Nat → Nat) (r : Nat) :
    targets.foldl decrement count r = count r - targets.count r := by
  induction targets generalizing count with
  | nil => simp
  | cons t targets ih =>
    rw [List.foldl_cons, ih, decrement, List.count_cons]
    by_cases h : r = t
    · subst h
      simp only [if_true, beq_self_eq_true]
      omega
    · have h' : ¬ (t == r) = true := by simpa using Ne.symm h
      simp [h, h']

theorem release_eq (edges : List (Nat × Nat)) (rank : Nat) (count : Nat → Nat) (r : Nat) :
    release edges rank count r =
      count r - edges.countP fun e => e.2 = r ∧ e.1 = rank := by
  rw [release, foldl_decrement, List.count, List.countP_map, List.countP_filter]
  congr 1
  apply List.countP_congr
  intro e _
  simp

theorem countP_pending {rank : Nat} (hnodup : pending.Nodup) (hmem : rank ∈ pending) (r : Nat) :
    edges.countP (fun e => e.2 = r ∧ e.1 ∈ pending) =
      edges.countP (fun e => e.2 = r ∧ e.1 ∈ pending.erase rank) +
        edges.countP fun e => e.2 = r ∧ e.1 = rank := by
  induction edges with
  | nil => rfl
  | cons e edges ih =>
    simp only [List.countP_cons, ih, hnodup.mem_erase_iff]
    by_cases htarget : e.2 = r
    · by_cases hrank : e.1 = rank
      · simp [htarget, hrank, hmem]
        omega
      · by_cases hpending : e.1 ∈ pending <;> simp [htarget, hrank, hpending]
        omega
    · simp [htarget]

/-- Placing a rank takes away exactly the edges that start at it. -/
theorem counts_release {rank : Nat} (hcounts : Counts edges pending count)
    (hnodup : pending.Nodup) (hmem : rank ∈ pending) :
    Counts edges (pending.erase rank) (release edges rank count) := by
  intro r
  rw [release_eq, hcounts r, countP_pending hnodup hmem]
  omega

theorem not_mem_edges_of_count {rank r : Nat} (hcounts : Counts edges pending count)
    (hzero : count rank = 0) (hr : r ∈ pending) : (r, rank) ∉ edges := by
  intro he
  have hnone := hcounts rank
  rw [hzero, eq_comm, List.countP_eq_zero] at hnone
  simpa [hr] using hnone (r, rank) he

theorem place_eq (edges : List (Nat × Nat)) (pending : List Nat) (count : Nat → Nat) :
    place edges pending count =
      match pending.find? (count · = 0) with
      | none => ([], pending)
      | some rank =>
        (rank :: (place edges (pending.erase rank) (release edges rank count)).1,
          (place edges (pending.erase rank) (release edges rank count)).2) := by
  rw [place]
  split
  · rename_i hnone
    rw [hnone]
  · rename_i rank hsome
    rw [hsome]

structure Placed (edges : List (Nat × Nat)) (pending order stuck : List Nat) : Prop where
  perm : (order ++ stuck).Perm pending
  forward : order.Pairwise fun a b => (b, a) ∉ edges
  irreflexive : ∀ a ∈ order, (a, a) ∉ edges
  blocked : ∀ b ∈ stuck, ∃ a ∈ stuck, (a, b) ∈ edges

theorem placed_place (hnodup : pending.Nodup) (hcounts : Counts edges pending count) :
    Placed edges pending (place edges pending count).1 (place edges pending count).2 := by
  induction hlen : pending.length generalizing pending count with
  | zero =>
    have : pending = [] := List.length_eq_zero_iff.1 hlen
    subst this
    rw [place_eq]
    exact ⟨.refl _, .nil, by simp, by simp⟩
  | succ n ih =>
    rw [place_eq]
    cases hfind : pending.find? (count · = 0) with
    | none =>
      refine ⟨.refl _, .nil, by simp, fun b hb => ?_⟩
      have hb0 : count b ≠ 0 := by simpa using List.find?_eq_none.1 hfind b hb
      rw [hcounts b, ne_eq, List.countP_eq_zero] at hb0
      push Not at hb0
      obtain ⟨⟨a, b'⟩, he, hab⟩ := hb0
      obtain ⟨rfl, ha⟩ : b' = b ∧ a ∈ pending := by simpa using hab
      exact ⟨a, ha, he⟩
    | some rank =>
      have hmem := List.mem_of_find?_eq_some hfind
      have hzero : count rank = 0 := by simpa using List.find?_some hfind
      have hrest := ih (hnodup.erase rank) (counts_release hcounts hnodup hmem)
        (by rw [List.length_erase_of_mem hmem]; omega)
      refine ⟨?_, ?_, ?_, hrest.blocked⟩
      · exact (hrest.perm.cons rank).trans (List.perm_cons_erase hmem).symm
      · refine List.pairwise_cons.2 ⟨fun b hb => ?_, hrest.forward⟩
        have hb' := hrest.perm.mem_iff.1 (List.mem_append_left _ hb)
        exact not_mem_edges_of_count hcounts hzero (List.mem_of_mem_erase hb')
      · intro a ha
        rcases List.mem_cons.1 ha with rfl | ha
        · exact not_mem_edges_of_count hcounts hzero hmem
        · exact hrest.irreflexive a ha

/-- A chain of edges that starts in an order without back edges goes on behind its start. -/
theorem sublist_of_isChain {before after chain : List Nat} {a : Nat}
    (hforward : (before ++ a :: after).Pairwise fun a b => (b, a) ∉ edges)
    (hirrefl : ∀ b ∈ before ++ a :: after, (b, b) ∉ edges)
    (hchain : (a :: chain).IsChain fun a b => (a, b) ∈ edges)
    (hmem : ∀ b ∈ chain, b ∈ before ++ a :: after) : chain.Sublist after := by
  induction chain generalizing before a after with
  | nil => exact List.nil_sublist after
  | cons b chain ih =>
    rw [List.isChain_cons_cons] at hchain
    obtain ⟨hab, hchain⟩ := hchain
    have hb : b ∈ after := by
      have hbmem := hmem b List.mem_cons_self
      rw [List.mem_append, List.mem_cons] at hbmem
      rcases hbmem with hbefore | rfl | hafter
      · have := (List.pairwise_append.1 hforward).2.2 b hbefore a List.mem_cons_self
        exact absurd hab this
      · exact absurd hab (hirrefl b (List.mem_append_right _ List.mem_cons_self))
      · exact hafter
    obtain ⟨middle, rest, rfl⟩ := List.append_of_mem hb
    have hassoc : before ++ a :: (middle ++ b :: rest) = (before ++ a :: middle) ++ b :: rest := by
      simp
    rw [hassoc] at hforward hirrefl hmem
    have hrest := ih hforward hirrefl hchain fun c hc => hmem c (List.mem_cons_of_mem _ hc)
    exact (hrest.cons_cons b).trans (List.sublist_append_right _ _)

theorem Placed.sublist {order stuck chain : List Nat} (h : Placed edges pending order stuck)
    (hchain : chain.IsChain fun a b => (a, b) ∈ edges) (hmem : ∀ a ∈ chain, a ∈ order) :
    chain.Sublist order := by
  cases chain with
  | nil => exact List.nil_sublist order
  | cons a chain =>
    obtain ⟨before, after, rfl⟩ := List.append_of_mem (hmem a List.mem_cons_self)
    have hrest := sublist_of_isChain h.forward h.irreflexive hchain
      fun b hb => hmem b (List.mem_cons_of_mem _ hb)
    exact (hrest.cons_cons a).trans (List.sublist_append_right _ _)

theorem idxOf_lt_of_sublist {ranks : List Nat} (hnodup : ranks.Nodup) {a b : Nat}
    (h : [a, b].Sublist ranks) : ranks.idxOf a < ranks.idxOf b := by
  have hsorted : ranks.Pairwise fun a b => ranks.idxOf a < ranks.idxOf b := by
    apply List.pairwise_iff_getElem.2
    intro i j hi hj hij
    rwa [hnodup.idxOf_getElem, hnodup.idxOf_getElem]
  simpa using hsorted.sublist h

/-- Ranks that block each other have no order in which each edge leads forward. -/
theorem Placed.stuck_eq_nil {order stuck ranks : List Nat} (h : Placed edges pending order stuck)
    (hnodup : ranks.Nodup) (hedges : ∀ e ∈ edges, [e.1, e.2].Sublist ranks) : stuck = [] := by
  have hnone : ∀ n, ∀ b ∈ stuck, ranks.idxOf b = n → False := by
    intro n
    induction n using Nat.strong_induction_on with
    | h n ih =>
      intro b hb hidx
      obtain ⟨a, ha, hab⟩ := h.blocked b hb
      have hlt := idxOf_lt_of_sublist hnodup (hedges (a, b) hab)
      exact ih (ranks.idxOf a) (hidx ▸ hlt) a ha rfl
  exact List.eq_nil_iff_forall_not_mem.2 fun b hb => hnone _ b hb rfl

theorem sublist_of_mem_neighbours {α : Type} {xs : List α} {p : α × α}
    (h : p ∈ neighbours xs) : [p.1, p.2].Sublist xs := by
  induction xs with
  | nil => simp [neighbours] at h
  | cons x xs ih =>
    cases xs with
    | nil => simp [neighbours] at h
    | cons y ys =>
      rw [neighbours, List.tail_cons, List.zip_cons_cons, List.mem_cons] at h
      rcases h with rfl | h
      · exact ((List.nil_sublist ys).cons_cons y).cons_cons x
      · exact (ih h).cons x

theorem isChain_of_neighbours {α : Type} {xs : List α} {R : α → α → Prop}
    (h : ∀ p ∈ neighbours xs, R p.1 p.2) : xs.IsChain R := by
  induction xs with
  | nil => exact .nil
  | cons x xs ih =>
    cases xs with
    | nil => exact .singleton x
    | cons y ys =>
      rw [neighbours, List.tail_cons, List.zip_cons_cons, List.forall_mem_cons] at h
      exact List.isChain_cons_cons.2 ⟨h.1, ih h.2⟩

end FieldOrder

namespace FieldShapes

variable {h : History} {f : Field}

def values (shapes : FieldShapes) : List Field :=
  shapes.entries.map Span.value

theorem nodup_values (h : History) : (ofHistory h).values.Nodup :=
  nodup_value_spans _

theorem mem_values : f ∈ (ofHistory h).values ↔ ∃ e ∈ h.entries, f ∈ e.2.fields := by
  simp only [values, ofHistory, map_value_spans, List.mem_eraseDups, List.mem_map,
    List.mem_flatMap]
  constructor
  · rintro ⟨use, ⟨e, he, f', hf', rfl⟩, rfl⟩
    exact ⟨e, he, hf'⟩
  · rintro ⟨e, he, hf⟩
    exact ⟨(f, e.1), ⟨e, he, f, hf, rfl⟩, rfl⟩

theorem mem_versions {s : Span Field} (hs : s ∈ (ofHistory h).entries) {v : Version} :
    v ∈ s.versions ↔ ∃ d, (v, d) ∈ h.entries ∧ s.value ∈ d.fields := by
  rw [mem_versions_of_mem_spans hs]
  simp only [List.mem_flatMap, List.mem_map, Prod.mk.injEq]
  constructor
  · rintro ⟨e, he, f, hf, rfl, rfl⟩
    exact ⟨e.2, he, hf⟩
  · rintro ⟨d, hd, hf⟩
    exact ⟨(v, d), hd, s.value, hf, rfl, rfl⟩

theorem rank?_eq {shapes : FieldShapes} (hf : f ∈ shapes.values) :
    shapes.rank? f = some (shapes.values.idxOf f) := by
  obtain ⟨s, hs, rfl⟩ := List.mem_map.1 hf
  rw [rank?, List.findIdx?_eq_some_of_exists ⟨s, hs, by simp⟩, values, List.idxOf,
    List.findIdx_map]
  congr 2

/-- The shape at the rank of a field is the field. -/
theorem map_value_get?_rank? (shapes : FieldShapes) (hf : f ∈ shapes.values) :
    ((shapes.rank? f).bind shapes.get?).map Span.value = some f := by
  have hlt : shapes.values.idxOf f < shapes.entries.length := by
    simpa [values] using List.idxOf_lt_length_of_mem hf
  have hlt' : shapes.values.idxOf f < (shapes.entries.map Span.value).length := by simpa using hlt
  have hget : (shapes.entries.map Span.value)[shapes.values.idxOf f] = f :=
    List.getElem_idxOf hlt'
  rw [List.getElem_map] at hget
  rw [rank?_eq hf, Option.bind_some, get?, List.getElem?_eq_getElem hlt, Option.map_some, hget]

theorem filterMap_get?_range (shapes : FieldShapes) :
    (List.range shapes.size).filterMap shapes.get? = shapes.entries := by
  obtain ⟨entries⟩ := shapes
  change (List.range entries.length).filterMap (fun r => entries[r]?) = entries
  induction entries with
  | nil => rfl
  | cons s entries ih =>
    rw [List.length_cons, List.range_succ_eq_map]
    change s :: ((List.range entries.length).map Nat.succ).filterMap _ = _
    rw [List.filterMap_map]
    exact congrArg (s :: ·) ih

end FieldShapes

namespace History

/-- One order of all field shapes in which each version's own order is a subsequence. -/
structure CommonOrder (h : History) (order : List Field) : Prop where
  nodup : order.Nodup
  mem_iff : ∀ f, f ∈ order ↔ ∃ e ∈ h.entries, f ∈ e.2.fields
  sublist : ∀ e ∈ h.entries, e.2.fields.Sublist order

end History

namespace FieldOrder

variable {h : History}

/-- The ranks of a version's fields, in their order. -/
theorem filterMap_rank? {e : Version × Declaration} (he : e ∈ h.entries) :
    e.2.fields.filterMap (FieldShapes.ofHistory h).rank? =
      e.2.fields.map (FieldShapes.ofHistory h).values.idxOf := by
  rw [← List.filterMap_eq_map]
  apply List.filterMap_congr
  intro f hf
  exact FieldShapes.rank?_eq (FieldShapes.mem_values.2 ⟨e, he, hf⟩)

theorem mem_edges {h : History} {p : Nat × Nat} :
    p ∈ edges h (FieldShapes.ofHistory h) ↔ ∃ e ∈ h.entries,
      p ∈ neighbours (e.2.fields.map (FieldShapes.ofHistory h).values.idxOf) := by
  rw [edges, List.mem_eraseDups, List.mem_flatMap]
  constructor
  · rintro ⟨e, he, hp⟩
    exact ⟨e, he, filterMap_rank? he ▸ hp⟩
  · rintro ⟨e, he, hp⟩
    exact ⟨e, he, (filterMap_rank? he).symm ▸ hp⟩

theorem mem_range_of_mem_fields {e : Version × Declaration} (he : e ∈ h.entries) {r : Nat}
    (hr : r ∈ e.2.fields.map (FieldShapes.ofHistory h).values.idxOf) :
    r ∈ List.range (FieldShapes.ofHistory h).size := by
  obtain ⟨f, hf, rfl⟩ := List.mem_map.1 hr
  have hmem := FieldShapes.mem_values.2 ⟨e, he, hf⟩
  rw [List.mem_range]
  simpa [FieldShapes.size, FieldShapes.values] using List.idxOf_lt_length_of_mem hmem

theorem counts_indegree (h : History) :
    Counts (edges h (FieldShapes.ofHistory h)) (List.range (FieldShapes.ofHistory h).size)
      (indegree (edges h (FieldShapes.ofHistory h))) := by
  refine fun r => List.countP_congr fun p hp => ?_
  obtain ⟨e, he, hp⟩ := mem_edges.1 hp
  have hmem := (sublist_of_mem_neighbours hp).subset List.mem_cons_self
  simp [mem_range_of_mem_fields he hmem]

theorem placed_shapes (h : History) :
    let shapes := FieldShapes.ofHistory h
    let result := place (edges h shapes) (List.range shapes.size) (indegree (edges h shapes))
    Placed (edges h shapes) (List.range shapes.size) result.1 result.2 :=
  placed_place List.nodup_range (counts_indegree h)

theorem order_eq (h : History) (shapes : FieldShapes) :
    order h shapes =
      let result := place (edges h shapes) (List.range shapes.size) (indegree (edges h shapes))
      if result.2 = [] then .ok result.1 else .error result.2 := by
  rw [order]
  split
  · rename_i hplace
    simp [hplace]
  · rename_i hne hplace
    rw [hplace]
    exact (if_neg hne).symm

/-- A version's fields are a chain of edges between ranks. -/
theorem isChain_fields {e : Version × Declaration} (he : e ∈ h.entries) :
    (e.2.fields.map (FieldShapes.ofHistory h).values.idxOf).IsChain
      fun a b => (a, b) ∈ edges h (FieldShapes.ofHistory h) :=
  isChain_of_neighbours fun _ hp => mem_edges.2 ⟨e, he, hp⟩

end FieldOrder

namespace Merge

variable {h : History}

open FieldOrder FieldShapes

theorem map_value_fields {e : Version × Declaration} (he : e ∈ h.entries) :
    ((e.2.fields.map (ofHistory h).values.idxOf).filterMap (ofHistory h).get?).map Span.value =
      e.2.fields := by
  rw [← filterMap_rank? he, List.filterMap_filterMap, List.map_filterMap]
  have hsome : ∀ f ∈ e.2.fields,
      (((ofHistory h).rank? f).bind (ofHistory h).get?).map Span.value = some f :=
    fun f hf => map_value_get?_rank? _ (mem_values.2 ⟨e, he, hf⟩)
  rw [List.filterMap_congr hsome, List.filterMap_some]

/-- Shapes that could be ordered stand in an order that all versions share. -/
theorem orderedShapes_ok {ordered : List (Span Field)} (hok : orderedShapes h = .ok ordered) :
    ordered.Perm (ofHistory h).entries ∧ h.CommonOrder (ordered.map Span.value) := by
  have hplaced := placed_shapes h
  rw [orderedShapes, order_eq] at hok
  simp only at hok hplaced
  generalize place _ _ _ = result at hok hplaced
  by_cases hstuck : result.2 = []
  · rw [if_pos hstuck] at hok
    obtain rfl := Except.ok.inj hok
    have hperm : result.1.Perm (List.range (ofHistory h).size) := by
      simpa [hstuck] using hplaced.perm
    have hentries : (result.1.filterMap (ofHistory h).get?).Perm (ofHistory h).entries := by
      simpa only [filterMap_get?_range] using hperm.filterMap (ofHistory h).get?
    refine ⟨hentries, (hentries.map Span.value).nodup_iff.2 (nodup_values h), fun f => ?_,
      fun e he => ?_⟩
    · rw [(hentries.map Span.value).mem_iff]
      exact mem_values
    · have hsub := hplaced.sublist (isChain_fields he)
        fun r hr => hperm.mem_iff.2 (mem_range_of_mem_fields he hr)
      have := (hsub.filterMap (ofHistory h).get?).map Span.value
      rwa [map_value_fields he] at this
  · rw [if_neg hstuck] at hok
    simp at hok

/-- Where the shapes could not be ordered, the versions share no order. -/
theorem orderedShapes_error {e : MergeError} (herror : orderedShapes h = .error e) :
    (∃ versions, e = .conflictingFieldOrder h.name versions) ∧
      ¬ ∃ order, h.CommonOrder order := by
  have hplaced := placed_shapes h
  rw [orderedShapes, order_eq] at herror
  simp only at herror hplaced
  generalize place _ _ _ = result at herror hplaced
  by_cases hstuck : result.2 = []
  · rw [if_pos hstuck] at herror
    simp at herror
  · rw [if_neg hstuck] at herror
    refine ⟨⟨_, (Except.error.inj herror).symm⟩, fun ⟨order, hcommon⟩ => hstuck ?_⟩
    have hinj : ∀ f ∈ order, ∀ g ∈ order,
        (ofHistory h).values.idxOf f = (ofHistory h).values.idxOf g → f = g :=
      fun f hf g _ heq => (List.idxOf_inj (mem_values.2 ((hcommon.mem_iff f).1 hf))).1 heq
    apply hplaced.stuck_eq_nil (hcommon.nodup.map_on hinj)
    intro p hp
    obtain ⟨e, he, hp⟩ := mem_edges.1 hp
    exact (sublist_of_mem_neighbours hp).trans ((hcommon.sublist e he).map _)

end Merge

end SchemaLineage
