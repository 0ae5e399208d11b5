import SchemaLineage.Guard.Flatten

/-!
Where the items of a guard body stand. The placement of a body lists its items in order, each with
the conditions of the guards around it, the outermost first. What is visible at a version, what the
walk over a stack of bodies lists and what flattening keeps are all read off the placement:
flattening drops from every path the conditions that repeat the one around them, and nothing else.
Items that stand side by side in one body stay so.
-/
namespace SchemaLineage.GuardBody

variable {α β : Type}

/-- The items with the conditions of the guards around them, the outermost first. -/
def placed : GuardBody α → List (List Condition × α)
  | nil => []
  | item x rest => ([], x) :: placed rest
  | guard c inner rest => (placed inner).map (fun p => (c :: p.1, p.2)) ++ placed rest

def conditions : GuardBody α → List Condition
  | nil => []
  | item _ rest => conditions rest
  | guard c inner rest => c :: conditions inner ++ conditions rest

def Occupied : GuardBody α → Prop
  | nil => True
  | item _ rest => Occupied rest
  | guard _ inner rest => inner ≠ nil ∧ Occupied inner ∧ Occupied rest

/-- The conditions of a path that add to the one around them. -/
def essential (enclosing : Condition) : List Condition → List Condition
  | [] => []
  | c :: path =>
    if c = .always ∨ c = enclosing then essential enclosing path else c :: essential c path

theorem visible_eq_placed (body : GuardBody α) (v : Version) :
    body.visible v =
      (body.placed.filter fun p => p.1.all (·.holds v)).map Prod.snd := by
  induction body with
  | nil => rfl
  | item x rest ih => simp [visible, placed, ih, List.filter_cons]
  | guard c inner rest ihInner ihRest =>
    simp only [visible, placed, List.filter_append, List.map_append, ihRest]
    congr 1
    by_cases hc : c.holds v = true
    · simp [hc, ihInner, List.filter_map, Function.comp_def]
    · simp [hc, List.filter_map, Function.comp_def]

/-- The stack walk lists the bodies of the stack one after the other. -/
theorem walk_eq_placed (stack : List (GuardBody α)) :
    walk stack = stack.flatMap fun body => body.placed.map Prod.snd := by
  fun_induction walk stack with
  | case1 => rfl
  | case2 stack ih => simpa [placed] using ih
  | case3 x rest stack ih => simp [placed, ih]
  | case4 c inner rest stack ih => simp [placed, ih, Function.comp_def]

theorem items_eq_placed (body : GuardBody α) : body.items = body.placed.map Prod.snd := by
  rw [items, walk_eq_placed]
  simp

theorem placed_append (body tail : GuardBody α) :
    (body.append tail).placed = body.placed ++ tail.placed := by
  induction body with
  | nil => rfl
  | item x rest ih => simp [append, placed, ih]
  | guard c inner rest _ ih => simp [append, placed, ih]

theorem placed_foldr_append (bodies : List (GuardBody α)) :
    (bodies.foldr append nil).placed = bodies.flatMap placed := by
  induction bodies with
  | nil => rfl
  | cons body bodies ih => simp [placed_append, ih]

theorem placed_ofItems (xs : List α) : (ofItems xs).placed = xs.map fun x => ([], x) := by
  induction xs with
  | nil => rfl
  | cons x xs ih =>
    rw [List.map_cons, ← ih]
    rfl

/-- Joining two bodies moves no item to another path. -/
theorem placed_join (body tail : GuardBody α) :
    (body.join tail).placed = body.placed ++ tail.placed := by
  fun_induction join body tail with
  | case1 tail => rfl
  | case2 x rest tail ih => simp [placed, ih]
  | case3 c inner inner' tail ih => simp [placed, ih]
  | case4 c inner c' inner' tail hne => simp [placed]
  | case5 c inner rest tail _ ih => simp [placed, ih]

/-- Flattening keeps the items and their order, and takes from each path only what adds nothing. -/
theorem placed_flatten (body : GuardBody α) (enclosing : Condition) :
    (body.flatten enclosing).placed =
      body.placed.map fun p => (essential enclosing p.1, p.2) := by
  induction body generalizing enclosing with
  | nil => rfl
  | item x rest ih => simp [flatten, placed, essential, ih]
  | guard c inner rest ihInner ihRest =>
    simp only [flatten]
    by_cases hc : c = .always ∨ c = enclosing
    · rw [if_pos hc, placed_join, ihInner, ihRest]
      simp [placed, essential, hc, Function.comp_def]
    · rw [if_neg hc]
      have hpath : ((inner.flatten c).placed.map fun p => (c :: p.1, p.2)) =
          (inner.placed.map fun p => (c :: p.1, p.2)).map
            fun p => (essential enclosing p.1, p.2) := by
        simp [ihInner, essential, hc, Function.comp_def]
      split
      · rename_i hnil
        have hnone : inner.placed = [] := by simpa [hnil, placed] using (ihInner c).symm
        simp [placed, ihRest, hnone]
      · rw [placed_join, ihRest, placed, placed, List.append_nil, hpath, placed,
          List.map_append]

theorem all_holds_essential {enclosing : Condition} {v : Version} (path : List Condition)
    (h : enclosing.holds v = true) :
    (essential enclosing path).all (·.holds v) = path.all (·.holds v) := by
  induction path generalizing enclosing with
  | nil => rfl
  | cons c path ih =>
    simp only [essential]
    by_cases hc : c = .always ∨ c = enclosing
    · have hholds : c.holds v = true := by
        rcases hc with rfl | rfl
        · rfl
        · exact h
      simp [hc, ih h, hholds]
    · by_cases hholds : c.holds v = true
      · simp [hc, ih hholds]
      · simp [hc, hholds]

theorem join_eq_nil_iff {body tail : GuardBody α} :
    body.join tail = nil ↔ body = nil ∧ tail = nil := by
  fun_cases join body tail <;> simp_all

theorem occupied_join {body tail : GuardBody α} (hbody : body.Occupied) (htail : tail.Occupied) :
    (body.join tail).Occupied := by
  fun_induction join body tail with
  | case1 tail => exact htail
  | case2 x rest tail ih => exact ih hbody htail
  | case3 c inner inner' tail ih =>
    refine ⟨fun h => hbody.1 (join_eq_nil_iff.1 h).1, ih hbody.2.1 htail.2.1, htail.2.2⟩
  | case4 c inner c' inner' tail hne => exact ⟨hbody.1, hbody.2.1, htail⟩
  | case5 c inner rest tail _ ih => exact ⟨hbody.1, hbody.2.1, ih hbody.2.2 htail⟩

/-- Flattening leaves no guard empty. -/
theorem occupied_flatten (body : GuardBody α) (enclosing : Condition) :
    (body.flatten enclosing).Occupied := by
  induction body generalizing enclosing with
  | nil => trivial
  | item x rest ih => exact ih enclosing
  | guard c inner rest ihInner ihRest =>
    simp only [flatten]
    split
    · exact occupied_join (ihInner enclosing) (ihRest enclosing)
    · split
      · exact ihRest enclosing
      · rename_i hkept
        exact occupied_join ⟨hkept, ihInner c, trivial⟩ (ihRest enclosing)

theorem placed_ne_nil {body : GuardBody α} (hbody : body.Occupied) (hne : body ≠ nil) :
    body.placed ≠ [] := by
  induction body with
  | nil => exact absurd rfl hne
  | item x rest _ => simp [placed]
  | guard c inner rest ih _ =>
    have hinner := ih hbody.2.1 hbody.1
    simp [placed, hinner]

/-- If no guard is empty, each guard stands in the path of an item. -/
theorem exists_placed_of_mem_conditions {body : GuardBody α} (hbody : body.Occupied)
    {c : Condition} (hc : c ∈ body.conditions) : ∃ p ∈ body.placed, c ∈ p.1 := by
  induction body with
  | nil => simp [conditions] at hc
  | item x rest ih =>
    obtain ⟨p, hp, hcp⟩ := ih hbody hc
    exact ⟨p, List.mem_cons_of_mem _ hp, hcp⟩
  | guard c' inner rest ihInner ihRest =>
    simp only [conditions, List.cons_append, List.mem_cons, List.mem_append] at hc
    simp only [placed, List.mem_append, List.mem_map]
    rcases hc with rfl | hc | hc
    · obtain ⟨p, hp⟩ := List.exists_mem_of_ne_nil _ (placed_ne_nil hbody.2.1 hbody.1)
      exact ⟨_, Or.inl ⟨p, hp, rfl⟩, List.mem_cons_self⟩
    · obtain ⟨p, hp, hcp⟩ := ihInner hbody.2.1 hc
      exact ⟨_, Or.inl ⟨p, hp, rfl⟩, List.mem_cons_of_mem _ hcp⟩
    · obtain ⟨p, hp, hcp⟩ := ihRest hbody.2.2 hc
      exact ⟨p, Or.inr hp, hcp⟩

/-- In one body, at whatever depth, the first item stands directly before the second. -/
inductive Adjacent (x y : α) : GuardBody α → Prop where
  | here (rest : GuardBody α) : Adjacent x y (item x (item y rest))
  | later (z : α) {rest : GuardBody α} : Adjacent x y rest → Adjacent x y (item z rest)
  | within (c : Condition) {inner : GuardBody α} (rest : GuardBody α) :
    Adjacent x y inner → Adjacent x y (guard c inner rest)
  | behind (c : Condition) (inner : GuardBody α) {rest : GuardBody α} :
    Adjacent x y rest → Adjacent x y (guard c inner rest)

section Adjacent

variable {x y : α} {body tail : GuardBody α}

theorem adjacent_append_left (h : Adjacent x y body) : Adjacent x y (body.append tail) := by
  induction h with
  | here rest => exact .here _
  | later z _ ih => exact .later z ih
  | within c rest hinner _ => exact .within c _ hinner
  | behind c inner _ ih => exact .behind c inner ih

theorem adjacent_append_right (body : GuardBody α) (h : Adjacent x y tail) :
    Adjacent x y (body.append tail) := by
  induction body with
  | nil => exact h
  | item z rest ih => exact .later z ih
  | guard c inner rest _ ih => exact .behind c inner ih

theorem adjacent_foldr_append {bodies : List (GuardBody α)} (hmem : body ∈ bodies)
    (h : Adjacent x y body) : Adjacent x y (bodies.foldr append nil) := by
  induction bodies with
  | nil => simp at hmem
  | cons first bodies ih =>
    rw [List.foldr_cons]
    rcases List.mem_cons.1 hmem with rfl | hmem
    · exact adjacent_append_left h
    · exact adjacent_append_right first (ih hmem)

/-- Joining parts no neighbours of the first body. -/
theorem adjacent_join_left (h : Adjacent x y body) : Adjacent x y (body.join tail) := by
  fun_induction join body tail with
  | case1 tail => cases h
  | case2 z rest tail ih =>
    cases h with
    | here rest => exact .here _
    | later _ h => exact .later z (ih h)
  | case3 inner c inner' tail ih =>
    cases h with
    | within _ _ h => exact .within _ tail (ih h)
    | behind _ _ h => cases h
  | case4 c inner c' inner' tail hne =>
    cases h with
    | within _ _ h => exact .within c _ h
    | behind _ _ h => cases h
  | case5 c inner rest tail _ ih =>
    cases h with
    | within _ _ h => exact .within c _ h
    | behind _ _ h => exact .behind c inner (ih h)

/-- Joining parts no neighbours of the second body. -/
theorem adjacent_join_right (h : Adjacent x y tail) : Adjacent x y (body.join tail) := by
  fun_induction join body tail with
  | case1 tail => exact h
  | case2 z rest tail ih => exact .later z (ih h)
  | case3 inner c inner' tail ih =>
    cases h with
    | within _ _ h => exact .within _ tail (ih h)
    | behind _ _ h => exact .behind _ _ h
  | case4 c inner c' inner' tail hne => exact .behind c inner h
  | case5 c inner rest tail _ ih => exact .behind c inner (ih h)

/-- Flattening parts no neighbours, whatever guards it drops or joins around them. -/
theorem adjacent_flatten (h : Adjacent x y body) (enclosing : Condition) :
    Adjacent x y (body.flatten enclosing) := by
  induction h generalizing enclosing with
  | here rest => exact .here _
  | later z _ ih => exact .later z (ih enclosing)
  | within c rest _ ih =>
    simp only [flatten]
    split
    · exact adjacent_join_left (ih enclosing)
    · split
      · rename_i hnil
        have hinner := ih c
        rw [hnil] at hinner
        cases hinner
      · exact adjacent_join_left (.within c nil (ih c))
  | behind c inner _ ih =>
    simp only [flatten]
    split
    · exact adjacent_join_right (ih enclosing)
    · split
      · exact ih enclosing
      · exact adjacent_join_right (ih enclosing)

end Adjacent

end SchemaLineage.GuardBody
