import SchemaLineage.Guard.Building
import SchemaLineage.Proofs.Placement

/-!
The shape of flat bodies. Joining bodies is associative, and flattening respects it, so a body is
flat wherever its parts are, and flattening it once more under a condition that it was flattened
under, or under none, changes nothing. Main statement: building a flat tree node by node, where the
nodes of a guard are flattened again when the guard gives way to them, gives the same tree.
-/
namespace SchemaLineage

namespace GuardBody

variable {α : Type} {c enclosing : Condition} {body inner inner' rest tail : GuardBody α}

def LeadsWith (c : Condition) : GuardBody α → Prop
  | guard c' _ _ => c' = c
  | _ => False

/-- No guard is empty, always holds or repeats the condition around it, and no two neighbours are
guards under one condition. -/
def Flat (enclosing : Condition) : GuardBody α → Prop
  | nil => True
  | item _ rest => Flat enclosing rest
  | guard c inner rest => c ≠ .always ∧ c ≠ enclosing ∧ inner ≠ nil ∧ Flat c inner ∧
    ¬ LeadsWith c rest ∧ Flat enclosing rest

/-! ## Joining -/

theorem join_nil (body : GuardBody α) : body.join nil = body := by
  induction body with
  | nil => rfl
  | item x rest ih => rw [join, ih]
  | guard c inner rest _ ih => rw [join.eq_4 _ _ _ _ (by simp), ih]

theorem guard_join_guard : (guard c inner nil).join (guard c inner' tail) =
    guard c (inner.join inner') tail := by
  rw [join, if_pos rfl]

theorem guard_join (h : ¬ (rest = nil ∧ LeadsWith c tail)) :
    (guard c inner rest).join tail = guard c inner (rest.join tail) := by
  cases rest with
  | nil =>
    cases tail with
    | nil => exact join.eq_4 _ _ _ _ (by simp)
    | item x tail => exact join.eq_4 _ _ _ _ (by simp)
    | guard c' inner' tail =>
      have hne : ¬ c = c' := fun heq => h ⟨rfl, heq.symm⟩
      rw [join.eq_3, if_neg hne, join]
  | item x rest => exact join.eq_4 _ _ _ _ (by simp)
  | guard c' inner' rest => exact join.eq_4 _ _ _ _ (by simp)

theorem leadsWith_join (hne : body ≠ nil) :
    LeadsWith c (body.join tail) ↔ LeadsWith c body := by
  fun_cases join body tail <;> simp_all [LeadsWith]

theorem LeadsWith.exists_guard (h : LeadsWith c body) :
    ∃ inner rest, body = guard c inner rest := by
  cases body with
  | nil => cases h
  | item x rest => cases h
  | guard c' inner rest => exact ⟨inner, rest, h ▸ rfl⟩

theorem join_assoc (body middle tail : GuardBody α) :
    (body.join middle).join tail = body.join (middle.join tail) := by
  -- Guards are merged where the last node of one body meets the first of the next, so the cases
  -- are whether `rest` ends there and whether `middle` or `rest'` goes on with the same condition.
  induction body generalizing middle tail with
  | nil => rfl
  | item x rest ih => rw [join, join, join, ih]
  | guard c inner rest ihInner ihRest =>
    by_cases hnil : middle = nil
    · rw [hnil, join_nil, join]
    · by_cases hlead : rest = nil ∧ LeadsWith c middle
      · obtain ⟨inner', rest', rfl⟩ := hlead.2.exists_guard
        rw [hlead.1, guard_join_guard]
        by_cases htail : rest' = nil ∧ LeadsWith c tail
        · obtain ⟨inner'', rest'', rfl⟩ := htail.2.exists_guard
          rw [htail.1, guard_join_guard, guard_join_guard, guard_join_guard, ihInner]
        · rw [guard_join htail, guard_join htail, guard_join_guard]
      · have hstart : ¬ (rest = nil ∧ LeadsWith c (middle.join tail)) := by
          rwa [leadsWith_join hnil]
        have hkept : ¬ (rest.join middle = nil ∧ LeadsWith c tail) :=
          fun h => hnil (join_eq_nil_iff.1 h.1).2
        rw [guard_join hlead, guard_join hkept, guard_join hstart, ihRest]

theorem append_item (body : GuardBody α) (x : α) :
    body ++ item x nil = body.join (item x nil) := by
  induction body with
  | nil => rfl
  | item y rest ih =>
    change item y (rest ++ item x nil) = _
    rw [join, ih]
  | guard c inner rest _ ih =>
    change guard c inner (rest ++ item x nil) = _
    rw [join.eq_4 _ _ _ _ (by simp), ih]

theorem Flat.join (hbody : Flat enclosing body) (htail : Flat enclosing tail) :
    Flat enclosing (body.join tail) := by
  induction body generalizing enclosing tail with
  | nil => exact htail
  | item x rest ih => exact ih hbody htail
  | guard c inner rest ihInner ihRest =>
    obtain ⟨halways, hne, hinner, hflat, hlead, hrest⟩ := hbody
    by_cases hmeet : rest = nil ∧ LeadsWith c tail
    · obtain ⟨inner', rest', rfl⟩ := hmeet.2.exists_guard
      obtain ⟨-, -, -, hflat', hlead', hrest'⟩ := htail
      rw [hmeet.1, guard_join_guard]
      exact ⟨halways, hne, fun h => hinner (join_eq_nil_iff.1 h).1, ihInner hflat hflat',
        hlead', hrest'⟩
    · have hstart : ¬ LeadsWith c (rest.join tail) := by
        by_cases hnil : rest = nil
        · rw [hnil]
          exact fun h => hmeet ⟨hnil, h⟩
        · rwa [leadsWith_join hnil]
      rw [guard_join hmeet]
      exact ⟨halways, hne, hinner, hflat, hstart, ihRest hrest htail⟩

/-! ## Flattening -/

/-- Every guard is flattened on its own. -/
theorem flatten_guard (c enclosing : Condition) (inner rest : GuardBody α) :
    (guard c inner rest).flatten enclosing =
      ((guard c inner nil).flatten enclosing).join (rest.flatten enclosing) := by
  simp only [flatten]
  by_cases hc : c = .always ∨ c = enclosing
  · rw [if_pos hc, if_pos hc, join_nil]
  · rw [if_neg hc, if_neg hc]
    split
    · rfl
    · rw [join_nil]

theorem flatten_guard_of_idle (h : c = .always ∨ c = enclosing) (inner : GuardBody α) :
    (guard c inner nil).flatten enclosing = inner.flatten enclosing := by
  rw [flatten, if_pos h, flatten, join_nil]

theorem flatten_guard_of_empty (h : ¬ (c = .always ∨ c = enclosing))
    (hnil : inner.flatten c = nil) : (guard c inner nil).flatten enclosing = nil := by
  simp only [flatten, if_neg h, hnil]

theorem flatten_guard_of_kept (h : ¬ (c = .always ∨ c = enclosing))
    (hne : inner.flatten c ≠ nil) :
    (guard c inner nil).flatten enclosing = guard c (inner.flatten c) nil := by
  simp only [flatten, if_neg h]
  rw [join_nil]

theorem flat_flatten (body : GuardBody α) (enclosing : Condition) :
    Flat enclosing (body.flatten enclosing) := by
  induction body generalizing enclosing with
  | nil => trivial
  | item x rest ih => exact ih enclosing
  | guard c inner rest ihInner ihRest =>
    rw [flatten_guard]
    refine Flat.join ?_ (ihRest enclosing)
    by_cases hidle : c = .always ∨ c = enclosing
    · rw [flatten_guard_of_idle hidle]
      exact ihInner enclosing
    · by_cases hnil : inner.flatten c = nil
      · rw [flatten_guard_of_empty hidle hnil]
        trivial
      · rw [flatten_guard_of_kept hidle hnil]
        rw [not_or] at hidle
        exact ⟨hidle.1, hidle.2, hnil, ihInner c, id, trivial⟩

theorem flatten_guard_join (h : ∀ enclosing, (inner.join inner').flatten enclosing =
    (inner.flatten enclosing).join (inner'.flatten enclosing)) (c enclosing : Condition) :
    (guard c (inner.join inner') nil).flatten enclosing =
      ((guard c inner nil).flatten enclosing).join ((guard c inner' nil).flatten enclosing) := by
  by_cases hidle : c = .always ∨ c = enclosing
  · rw [flatten_guard_of_idle hidle, flatten_guard_of_idle hidle, flatten_guard_of_idle hidle, h]
  · by_cases hnil : inner.flatten c = nil
    · rw [flatten_guard_of_empty hidle hnil, join]
      have heq : (inner.join inner').flatten c = inner'.flatten c := by rw [h, hnil, join]
      by_cases hnil' : inner'.flatten c = nil
      · rw [flatten_guard_of_empty hidle hnil', flatten_guard_of_empty hidle (heq.trans hnil')]
      · rw [flatten_guard_of_kept hidle hnil', flatten_guard_of_kept hidle (heq ▸ hnil'), heq]
    · have hne : (inner.join inner').flatten c ≠ nil := by
        rw [h]
        exact fun hjoin => hnil (join_eq_nil_iff.1 hjoin).1
      rw [flatten_guard_of_kept hidle hne, flatten_guard_of_kept hidle hnil, h]
      by_cases hnil' : inner'.flatten c = nil
      · rw [flatten_guard_of_empty hidle hnil', hnil', join_nil, join_nil]
      · rw [flatten_guard_of_kept hidle hnil', guard_join_guard]

theorem flatten_join (body tail : GuardBody α) (enclosing : Condition) :
    (body.join tail).flatten enclosing =
      (body.flatten enclosing).join (tail.flatten enclosing) := by
  induction body generalizing tail enclosing with
  | nil => rfl
  | item x rest ih => rw [join, flatten, flatten, join, ih]
  | guard c inner rest ihInner ihRest =>
    by_cases hmeet : rest = nil ∧ LeadsWith c tail
    · obtain ⟨inner', rest', rfl⟩ := hmeet.2.exists_guard
      rw [hmeet.1, guard_join_guard, flatten_guard, flatten_guard_join (ihInner inner'),
        flatten_guard c enclosing inner' rest', join_assoc]
    · rw [guard_join hmeet, flatten_guard, ihRest, flatten_guard c enclosing inner rest,
        join_assoc]

/-- What was flattened under a condition can be flattened again for it, or for any other if the
condition always holds. -/
theorem flatten_flatten (h : c = .always ∨ c = enclosing) (body : GuardBody α) :
    (body.flatten c).flatten enclosing = body.flatten enclosing := by
  induction body generalizing c enclosing with
  | nil => rfl
  | item x rest ih => rw [flatten, flatten, flatten, ih h]
  | guard d inner rest ihInner ihRest =>
    rw [flatten_guard, flatten_join, ihRest h, flatten_guard d enclosing]
    congr 1
    -- A guard gives way, goes or stays under `c`; only one that stays can still give way.
    by_cases hidle : d = .always ∨ d = c
    · have hidle' : d = .always ∨ d = enclosing := by
        rcases hidle with hd | hd
        · exact .inl hd
        · exact hd ▸ h
      rw [flatten_guard_of_idle hidle, flatten_guard_of_idle hidle', ihInner h]
    · by_cases hnil : inner.flatten d = nil
      · rw [flatten_guard_of_empty hidle hnil, flatten]
        by_cases hd : d = enclosing
        · rw [flatten_guard_of_idle (.inr hd), ← hd, hnil]
        · rw [not_or] at hidle
          rw [flatten_guard_of_empty (not_or.2 ⟨hidle.1, hd⟩) hnil]
      · rw [flatten_guard_of_kept hidle hnil]
        by_cases hd : d = enclosing
        · rw [flatten_guard_of_idle (.inr hd), flatten_guard_of_idle (.inr hd), ihInner (.inr hd)]
        · have hagain : (inner.flatten d).flatten d = inner.flatten d := ihInner (.inr rfl)
          rw [not_or] at hidle
          have hbusy : ¬ (d = .always ∨ d = enclosing) := not_or.2 ⟨hidle.1, hd⟩
          rw [flatten_guard_of_kept hbusy (hagain.symm ▸ hnil), hagain,
            flatten_guard_of_kept hbusy hnil]

theorem flatten_guard_of_nil (enclosing : Condition) (hnil : inner.flatten c = nil) :
    (guard c inner nil).flatten enclosing = nil := by
  by_cases hidle : c = .always ∨ c = enclosing
  · rw [flatten_guard_of_idle hidle, ← flatten_flatten hidle, hnil, flatten]
  · exact flatten_guard_of_empty hidle hnil

/-! ## Building -/

theorem pushLast_eq_join {merge : GuardBody α → GuardBody α}
    (h : ∀ prev, merge prev = prev.join inner) (out : GuardBody α) :
    pushLast c inner merge out = out.join (guard c inner nil) := by
  fun_induction pushLast c inner merge out with
  | case1 => rfl
  | case2 x rest ih => rw [join, ih]
  | case3 inner' => rw [guard_join_guard, h]
  | case4 c' inner' hne =>
    have hlead : ¬ LeadsWith c' (guard c inner nil) := fun h => hne (Eq.symm h)
    rw [guard_join fun hmeet => hlead hmeet.2, join]
  | case5 c' inner' rest hrest ih =>
    rw [guard_join (fun hmeet => hrest hmeet.1), ih]

/-- Nodes of a flat body that are put at the end one after the other are joined as a whole: only the
first of them can meet a guard under its own condition. -/
theorem pushAll_eq_join (out : GuardBody α) (h : Flat enclosing body) :
    pushAll out body = out.join body := by
  induction body generalizing out enclosing with
  | nil => exact (join_nil out).symm
  | item x rest ih =>
    rw [pushAll, ih _ h, append_item, join_assoc]
    rfl
  | guard c inner rest ihInner ihRest =>
    obtain ⟨-, -, -, hinner, hlead, hrest⟩ := h
    have hmerge : ∀ prev, pushAll prev inner = prev.join inner := fun prev => ihInner prev hinner
    rw [pushAll, ihRest _ hrest, pushLast_eq_join hmerge, join_assoc,
      guard_join (fun hmeet => hlead hmeet.2)]
    rfl

theorem pushGuard_eq_join (out : GuardBody α) (h : Flat c inner) :
    pushGuard out c inner = out.join (guard c inner nil) :=
  pushLast_eq_join (fun prev => pushAll_eq_join prev h) out

theorem isEmpty_iff : body.isEmpty = true ↔ body = nil := by
  cases body <;> simp [isEmpty]

/-- Absorbing nodes one after the other joins the flat form of all of them. -/
theorem absorb_eq (enclosing : Condition) (out body : GuardBody α) :
    (absorb enclosing out body).1 = out.join (body.flatten enclosing) := by
  match body with
  | nil =>
    rw [absorb]
    exact (join_nil out).symm
  | item x rest =>
    rw [absorb]
    change (absorb enclosing (out ++ item x nil) rest).1 = _
    rw [absorb_eq enclosing, append_item, join_assoc]
    rfl
  | guard c inner rest =>
    have hinner := absorb_eq c nil inner
    rw [absorb, flatten_guard]
    cases hkept : absorb c nil inner with
    | mk kept hsize =>
      have hsmall : kept.size ≤ inner.size := by simpa [size] using hsize
      have hflat : kept = inner.flatten c := by
        rw [hkept] at hinner
        exact hinner
      dsimp only
      split
      · rename_i hempty
        have hnil : inner.flatten c = nil := hflat ▸ isEmpty_iff.1 hempty
        rw [absorb_eq enclosing, flatten_guard_of_nil enclosing hnil, join]
      · rename_i hkeeps
        have hne : inner.flatten c ≠ nil := fun hnil => hkeeps (isEmpty_iff.2 (hflat ▸ hnil))
        split
        · rename_i hidle
          -- The nodes of a guard are flat already, but for the condition of the guard.
          have hspliced := absorb_eq enclosing out kept
          rw [hflat, flatten_flatten hidle] at hspliced
          rw [absorb_eq enclosing, hflat, hspliced, flatten_guard_of_idle hidle, join_assoc]
        · rename_i hbusy
          have hkeptFlat : Flat c kept := hflat ▸ flat_flatten inner c
          rw [absorb_eq enclosing, pushGuard_eq_join out hkeptFlat, hflat,
            flatten_guard_of_kept hbusy hne, join_assoc]
termination_by body.size
decreasing_by all_goals simp only [size]; omega

end GuardBody

/-- A flat tree that is built node by node is the flat form of the tree. -/
theorem GuardTree.rebuild_eq_flatten {α : Type} (t : GuardTree α) : t.rebuild = t.flatten := by
  rw [rebuild, GuardBody.absorb_eq, flatten]
  rfl

end SchemaLineage
