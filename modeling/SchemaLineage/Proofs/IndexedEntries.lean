import Mathlib.Data.List.Basic
import SchemaLineage.Proofs.DeclaredClasses
import SchemaLineage.Proofs.FieldOrdering

/-!
Entries with an index. The groups of a grouping can be kept in a row, with a table of the place at
which the entry of each key stands, so that no entry has to be searched for. An entry is changed in
its place, or made at the end of the row under a key that the table does not have; so the row and
the table stay in step, and the row is what the search from the front gives. Main statements: the
histories of snapshots share out the scan by its names and nothing else; the shapes of a history are
its fields in first-seen order with the versions that show them, and their ranks are their places.
-/
namespace SchemaLineage

/-- The distinct values of a row in the order in which they first occur in it. -/
structure FirstSeen {α : Type} [DecidableEq α] (values firsts : List α) : Prop where
  ascending : firsts.Pairwise fun a b => values.idxOf a < values.idxOf b
  mem_iff : ∀ a, a ∈ firsts ↔ a ∈ values

theorem firstSeen_eraseDups {α : Type} [DecidableEq α] (values : List α) :
    FirstSeen values values.eraseDups := by
  refine ⟨?_, fun a => List.mem_eraseDups⟩
  induction values using List.reverseRecOn with
  | nil => simp
  | append_singleton values x ih =>
    have hbefore : ∀ a ∈ values.eraseDups, (values ++ [x]).idxOf a = values.idxOf a :=
      fun a ha => List.idxOf_append_of_mem (List.mem_eraseDups.1 ha)
    have hold : values.eraseDups.Pairwise
        fun a b => (values ++ [x]).idxOf a < (values ++ [x]).idxOf b := by
      refine ih.imp_of_mem fun {a b} ha hb hlt => ?_
      rwa [hbefore a ha, hbefore b hb]
    rw [eraseDups_concat]
    split
    · exact hold
    · rename_i hx
      refine List.pairwise_append.2 ⟨hold, List.pairwise_singleton _ _, fun a ha b hb => ?_⟩
      have hlt : values.idxOf a < values.length :=
        List.idxOf_lt_length_of_mem (List.mem_eraseDups.1 ha)
      rw [List.mem_singleton.1 hb, hbefore a ha, List.idxOf_append_of_notMem hx]
      exact Nat.lt_add_right _ hlt

/-! ## Entries and their places -/

/-- Entries under distinct keys, with the place of the entry of each key. -/
structure Indexed (κ β : Type) [DecidableEq κ] [Hashable κ] where
  entries : List (κ × β)
  places : Std.HashMap κ Nat
  place_iff : ∀ (key : κ) (place : Nat),
    places[key]? = some place ↔ (entries[place]?).map Prod.fst = some key

namespace Indexed

variable {κ β γ : Type} [DecidableEq κ] [Hashable κ]

def empty : Indexed κ β :=
  ⟨[], ∅, by simp⟩

theorem key_ne_of_none {t : Indexed κ β} {key : κ} (h : t.places[key]? = none)
    {e : κ × β} (he : e ∈ t.entries) : e.1 ≠ key := by
  rintro rfl
  obtain ⟨place, hplace⟩ := List.mem_iff_getElem?.1 he
  rw [(t.place_iff e.1 place).2 (by rw [hplace]; rfl)] at h
  cases h

theorem nodup_keys (t : Indexed κ β) : (t.entries.map Prod.fst).Nodup := by
  rw [List.nodup_iff_getElem?_ne_getElem?]
  intro i j hlt hj heq
  rw [List.length_map] at hj
  have hkey : ((t.entries[j]?).map Prod.fst) = some t.entries[j].1 := by
    rw [List.getElem?_eq_getElem hj]
    rfl
  rw [List.getElem?_map, List.getElem?_map, hkey] at heq
  have hplace := ((t.place_iff _ i).2 heq).symm.trans ((t.place_iff _ j).2 hkey)
  exact absurd (Option.some.inj hplace) (Nat.ne_of_lt hlt)

def push (t : Indexed κ β) (key : κ) (value : β) (h : t.places[key]? = none) : Indexed κ β where
  entries := t.entries ++ [(key, value)]
  places := t.places.insert key t.entries.length
  place_iff := by
    intro other place
    rw [Std.HashMap.getElem?_insert]
    -- Only the place behind the last entry changes: the key was at none before.
    rcases Nat.lt_trichotomy place t.entries.length with hlt | rfl | hgt
    · rw [List.getElem?_append_left hlt, ← t.place_iff]
      split
      · rename_i heq
        rw [← eq_of_beq heq, h, Option.some.injEq]
        exact iff_of_false (Nat.ne_of_gt hlt) nofun
      · exact Iff.rfl
    · rw [List.getElem?_concat_length, Option.map_some, Option.some.injEq]
      split
      · rename_i heq
        exact iff_of_true rfl (eq_of_beq heq)
      · rename_i hne
        rw [t.place_iff, List.getElem?_eq_none (Nat.le_refl _)]
        exact iff_of_false nofun fun heq => hne (beq_iff_eq.2 heq)
    · rw [List.getElem?_eq_none (by rw [List.length_append]; exact hgt)]
      refine iff_of_false ?_ nofun
      split
      · rw [Option.some.injEq]
        exact Nat.ne_of_lt hgt
      · rw [t.place_iff, List.getElem?_eq_none (Nat.le_of_lt hgt)]
        nofun

def change (t : Indexed κ β) (place : Nat) (f : β → β) : Indexed κ β where
  entries := t.entries.modify place fun e => (e.1, f e.2)
  places := t.places
  place_iff := by
    intro key other
    rw [t.place_iff, List.getElem?_modify]
    cases t.entries[other]? with
    | none => simp
    | some e => by_cases h : place = other <;> simp [h]

/-- The place of the entry of a key, which is made if there is none. -/
def slot (t : Indexed κ β) (key : κ) (start : β) : Nat × Indexed κ β :=
  match h : t.places[key]? with
  | some place => (place, t)
  | none => (t.entries.length, t.push key start h)

def update (t : Indexed κ β) (key : κ) (start : β) (f : β → β) : Indexed κ β :=
  (t.slot key start).2.change (t.slot key start).1 f

def ofPairs (start : γ) (put : γ → β → γ) (pairs : List (κ × β)) : Indexed κ γ :=
  pairs.foldl (fun t pair => t.update pair.1 start (put · pair.2)) empty

theorem entries_update_of_some {t : Indexed κ β} {key : κ} {place : Nat}
    (h : t.places[key]? = some place) (start : β) (f : β → β) :
    (t.update key start f).entries = t.entries.modify place fun e => (e.1, f e.2) := by
  have hslot : t.slot key start = (place, t) := by
    unfold slot
    split <;> simp_all
  rw [update, hslot]
  rfl

theorem entries_update_of_none {t : Indexed κ β} {key : κ} (h : t.places[key]? = none)
    (start : β) (f : β → β) :
    (t.update key start f).entries = t.entries ++ [(key, f start)] := by
  have hslot : t.slot key start = (t.entries.length, t.push key start h) := by
    unfold slot
    split <;> simp_all
  rw [update, hslot]
  change (t.entries ++ [(key, start)]).modify t.entries.length _ = _
  rw [List.modify_eq_take_drop, List.take_left, List.drop_left]
  rfl

end Indexed

section Folds

variable {κ β γ : Type} {groups : List (κ × List β)}

def foldGroups (start : γ) (put : γ → β → γ) (groups : List (κ × List β)) : List (κ × γ) :=
  groups.map fun g => (g.1, g.2.foldl put start)

theorem map_fst_foldGroups (start : γ) (put : γ → β → γ) :
    (foldGroups start put groups).map Prod.fst = groups.map Prod.fst := by
  rw [foldGroups, List.map_map]
  rfl

theorem foldGroups_modify (start : γ) (put : γ → β → γ) (value : β) (place : Nat) :
    foldGroups start put (groups.modify place fun g => (g.1, g.2 ++ [value])) =
      (foldGroups start put groups).modify place fun e => (e.1, put e.2 value) := by
  refine List.ext_getElem? fun i => ?_
  simp only [foldGroups, List.getElem?_map, List.getElem?_modify]
  cases groups[i]? with
  | none => rfl
  | some g => by_cases h : place = i <;> simp [h]

end Folds

section Grouping

variable {κ β γ : Type} [DecidableEq κ] {key : κ} {groups : List (κ × List β)}

theorem addToGroup_at_place (value : β) (hnodup : (groups.map Prod.fst).Nodup) {place : Nat}
    (hplace : (groups[place]?).map Prod.fst = some key) :
    addToGroup key value groups = groups.modify place fun g => (g.1, g.2 ++ [value]) := by
  induction groups generalizing place with
  | nil => cases hplace
  | cons group groups ih =>
    rw [List.map_cons, List.nodup_cons] at hnodup
    cases place with
    | zero =>
      have hkey : group.1 = key := by simpa using hplace
      rw [addToGroup, if_pos hkey]
      rfl
    | succ place =>
      rw [List.getElem?_cons_succ] at hplace
      have hne : group.1 ≠ key := by
        rintro rfl
        obtain ⟨g, hg, hkey⟩ := Option.map_eq_some_iff.1 hplace
        exact hnodup.1 (hkey ▸ List.mem_map_of_mem (List.mem_of_getElem? hg))
      rw [addToGroup, if_neg hne, ih hnodup.2 hplace, List.modify_succ_cons]

/-- Every value goes into one group. -/
theorem flatMap_groupByKey_perm (pairs : List (κ × β)) :
    ((groupByKey pairs).flatMap Prod.snd).Perm (pairs.map Prod.snd) := by
  have hadd : ∀ (key : κ) (value : β) (groups : List (κ × List β)),
      ((addToGroup key value groups).flatMap Prod.snd).Perm
        (groups.flatMap Prod.snd ++ [value]) := by
    intro key value groups
    induction groups with
    | nil => exact List.Perm.refl _
    | cons group groups ih =>
      rw [addToGroup]
      split
      · rw [List.flatMap_cons, List.flatMap_cons, List.append_assoc, List.append_assoc]
        exact List.perm_append_comm.append_left _
      · rw [List.flatMap_cons, List.flatMap_cons, List.append_assoc]
        exact ih.append_left _
  induction pairs using List.reverseRecOn with
  | nil => exact List.Perm.refl _
  | append_singleton pairs pair ih =>
    rw [groupByKey_concat, List.map_append]
    exact (hadd _ _ _).trans (ih.append_right _)

/-- Entries that are found by their places are the groups that are found from the front. -/
theorem Indexed.entries_ofPairs [Hashable κ] (start : γ) (put : γ → β → γ)
    (pairs : List (κ × β)) :
    (ofPairs start put pairs).entries = foldGroups start put (groupByKey pairs) := by
  induction pairs using List.reverseRecOn with
  | nil => rfl
  | append_singleton pairs pair ih =>
    have hstep : ofPairs start put (pairs ++ [pair]) =
        (ofPairs start put pairs).update pair.1 start (put · pair.2) := by
      rw [ofPairs, List.foldl_concat, ofPairs]
    have hkeys : (ofPairs start put pairs).entries.map Prod.fst =
        (groupByKey pairs).map Prod.fst := by
      rw [ih, map_fst_foldGroups]
    -- The keys stand in the same order on both sides, so a place in the table is one of a group.
    rw [hstep, groupByKey_concat]
    cases hplace : (ofPairs start put pairs).places[pair.1]? with
    | some place =>
      have hgroup : ((groupByKey pairs)[place]?).map Prod.fst = some pair.1 := by
        rw [← List.getElem?_map, ← hkeys, List.getElem?_map]
        exact (place_iff _ _ _).1 hplace
      rw [entries_update_of_some hplace,
        addToGroup_at_place pair.2 (hkeys ▸ nodup_keys _) hgroup, foldGroups_modify, ih]
    | none =>
      have hnew : ∀ g ∈ groupByKey pairs, g.1 ≠ pair.1 := by
        rw [← List.forall_mem_map (P := (· ≠ pair.1)), ← hkeys, List.forall_mem_map]
        exact fun e he => key_ne_of_none hplace he
      rw [entries_update_of_none hplace, addToGroup_at_end pair.2 hnew, foldGroups,
        List.map_append, ih]
      rfl

end Grouping

/-! ## Histories -/

/-- Files the declarations of all snapshots, as the walks over them gather them, under their
names. -/
def filedByName (snapshots : List Snapshot) : Indexed String (List (Version × Declaration)) :=
  snapshots.foldl (fun t s =>
    (declarationCollector.visit (.module s.schema) "").foldl (fun t d =>
      t.update d.name [] (· ++ [(s.version, d)])) t) .empty

theorem filedByName_eq (snapshots : List Snapshot) :
    filedByName snapshots = .ofPairs [] (fun entries entry => entries ++ [entry])
      ((scan snapshots).map fun entry => (entry.2.name, entry)) := by
  simp only [filedByName, Indexed.ofPairs, scan, List.foldl_map, List.foldl_flatMap,
    collected_module]

theorem entries_filedByName (snapshots : List Snapshot) :
    (filedByName snapshots).entries = (histories snapshots).map fun h => (h.name, h.entries) := by
  have hsame : ∀ entries : List (Version × Declaration),
      entries.foldl (fun entries entry => entries ++ [entry]) [] = entries := by
    intro entries
    induction entries using List.reverseRecOn with
    | nil => rfl
    | append_singleton entries entry ih => rw [List.foldl_concat, ih]
  rw [filedByName_eq, Indexed.entries_ofPairs, histories, List.map_map, foldGroups]
  simp only [hsame]
  rfl

/-- The names of the histories are the declared names in first-seen order, and a history holds the
part of the scan with its name, in the order of the scan; together they hold each entry of the scan
as often as the scan does. An index from the names to the places of the histories, kept while the
declarations are filed, gives the same. -/
theorem histories_share_out_scan (snapshots : List Snapshot) :
    FirstSeen ((scan snapshots).map (·.2.name)) ((histories snapshots).map History.name) ∧
      (∀ h ∈ histories snapshots, h.entries = (scan snapshots).filter (·.2.name = h.name)) ∧
      ((histories snapshots).flatMap History.entries).Perm (scan snapshots) ∧
      (filedByName snapshots).entries = (histories snapshots).map (fun h => (h.name, h.entries)) ∧
      ∀ name place, (filedByName snapshots).places[name]? = some place ↔
        ((histories snapshots)[place]?).map History.name = some name := by
  refine ⟨?_, ?_, ?_, entries_filedByName snapshots, fun name place => ?_⟩
  · rw [map_name_histories]
    exact firstSeen_eraseDups _
  · intro h hh
    rw [histories_eq, List.mem_map] at hh
    obtain ⟨name, -, rfl⟩ := hh
    rfl
  · have hperm := flatMap_groupByKey_perm ((scan snapshots).map fun entry => (entry.2.name, entry))
    rw [List.map_map] at hperm
    rw [histories, List.flatMap_map]
    simpa [Function.comp_def] using hperm
  · rw [(filedByName snapshots).place_iff, entries_filedByName, List.getElem?_map, Option.map_map]
    rfl

/-! ## Field shapes -/

deriving instance Hashable for Qualifier
deriving instance Hashable for Field

/-- Notes for each field of a history the versions that show it. -/
def notedShapes (h : History) : Indexed Field VersionSet :=
  h.entries.foldl (fun t e =>
    e.2.fields.foldl (fun t f => t.update f .empty (·.insert e.1)) t) .empty

namespace FieldShapes

variable (h : History)

theorem notedShapes_eq :
    notedShapes h = .ofPairs .empty VersionSet.insert
      (h.entries.flatMap fun entry => entry.2.fields.map fun f => (f, entry.1)) := by
  simp only [notedShapes, Indexed.ofPairs, List.foldl_map, List.foldl_flatMap]

theorem entries_notedShapes :
    (notedShapes h).entries = (ofHistory h).entries.map fun s => (s.value, s.versions) := by
  rw [notedShapes_eq, Indexed.entries_ofPairs, ofHistory, spans, List.map_map, foldGroups]
  rfl

theorem firstSeen_values : FirstSeen (h.entries.flatMap (·.2.fields)) (ofHistory h).values := by
  have hvalues : (ofHistory h).values = (h.entries.flatMap (·.2.fields)).eraseDups := by
    rw [values, ofHistory, map_value_spans, List.map_flatMap]
    simp [Function.comp_def]
  exact hvalues ▸ firstSeen_eraseDups _

variable {h} {f : Field} {rank : Nat}

theorem map_value_get? (shapes : FieldShapes) (rank : Nat) :
    (shapes.get? rank).map Span.value = shapes.values[rank]? := by
  rw [get?, values, List.getElem?_map]

/-- The rank of a shape is the place of its entry. -/
theorem rank?_eq_some_iff :
    (ofHistory h).rank? f = some rank ↔ ((ofHistory h).get? rank).map Span.value = some f := by
  by_cases hf : f ∈ (ofHistory h).values
  · rw [map_value_get?, rank?_eq hf, Option.some.injEq]
    constructor
    · rintro rfl
      exact List.getElem?_idxOf hf
    · intro hget
      obtain ⟨hlt, rfl⟩ := List.getElem?_eq_some_iff.1 hget
      exact (nodup_values h).idxOf_getElem rank hlt
  · rw [map_value_get?]
    refine iff_of_false (fun hrank => ?_) fun hget => hf (List.mem_of_getElem? hget)
    obtain ⟨hlt, hvalue, -⟩ := List.findIdx?_eq_some_iff_getElem.1 hrank
    exact hf (List.mem_map.2 ⟨_, List.getElem_mem hlt, of_decide_eq_true hvalue⟩)

theorem get?_isSome_iff {shapes : FieldShapes} : (shapes.get? rank).isSome ↔ rank < shapes.size := by
  simp [get?, size]

end FieldShapes

open FieldShapes

/-- The shapes of a history are the fields of its declarations in first-seen order, each with the
versions in which a declaration has the field. Ranks and entries are inverse to each other: the rank
of a field is the one at which its entry stands, and there is an entry exactly at the ranks below
the number of shapes. An index from the fields to the places of their entries, kept while the
versions are noted, gives the same. -/
theorem fieldShapes_index_history (h : History) :
    FirstSeen (h.entries.flatMap (·.2.fields)) ((ofHistory h).entries.map Span.value) ∧
      (∀ s ∈ (ofHistory h).entries, ∀ v, v ∈ s.versions ↔
        ∃ d, (v, d) ∈ h.entries ∧ s.value ∈ d.fields) ∧
      (∀ f rank, (ofHistory h).rank? f = some rank ↔
        ((ofHistory h).get? rank).map Span.value = some f) ∧
      (∀ rank, rank < (ofHistory h).size ↔ ∃ s, (ofHistory h).get? rank = some s ∧
        (ofHistory h).rank? s.value = some rank) ∧
      (notedShapes h).entries = (ofHistory h).entries.map (fun s => (s.value, s.versions)) ∧
      ∀ f, (notedShapes h).places[f]? = (ofHistory h).rank? f := by
  refine ⟨firstSeen_values h, fun s hs v => mem_versions hs, fun f rank => rank?_eq_some_iff,
    fun rank => ?_, entries_notedShapes h, fun f => Option.ext fun rank => ?_⟩
  · rw [← get?_isSome_iff, Option.isSome_iff_exists]
    refine exists_congr fun s => (and_iff_left_of_imp fun hs => ?_).symm
    rw [rank?_eq_some_iff, hs]
    rfl
  · rw [(notedShapes h).place_iff, rank?_eq_some_iff, entries_notedShapes, get?, List.getElem?_map,
      Option.map_map]
    rfl

end SchemaLineage
