import SchemaLineage.Proofs.StubLayout

/-!
The blocks of a stub, as they are told from its text alone. A row keeps of a line the width of its
indentation and whether it opens a block. As the lines of a stub are laid, its rows are nested, and
a reader that keeps the widths of the blocks that are open finds each row in one of them.
-/
namespace SchemaLineage.Stub

/-- A line as it counts for blocks: the width of its indentation, whether it opens a block, and
whether it is blank. -/
structure Row where
  width : Nat
  opens : Bool
  blank : Bool
  deriving DecidableEq

namespace Row

def ofText (cs : List Char) : Row :=
  ⟨(cs.takeWhile (· = ' ')).length, cs.getLast? = some ':', cs.all (· = ' ')⟩

/-- What may stand directly behind a row: one level deeper if it opens a block, and no deeper if it
is any other that is not blank. -/
def Follows (unit : Nat) (row next : Row) : Prop :=
  if row.opens then next.blank = false ∧ next.width = row.width + unit
  else row.blank = true ∨ next.width ≤ row.width

/-- The blocks of the rows are neither empty nor ill-nested. -/
structure Nested (unit : Nat) (rows : List Row) : Prop where
  follows : rows.IsChain (Follows unit)
  closed : ∀ row ∈ rows.getLast?, row.opens = false

/-- Whether rows are read as blocks. `widths` are those of the blocks that are open, the innermost
first, and `opened` tells whether the row before opened one more. Its first row must be wider than
all of them; any other row goes on in one of them and closes those that are wider. -/
def readable (widths : List Nat) (opened : Bool) : List Row → Bool
  | [] => !opened
  | row :: rows =>
    if row.blank then readable widths opened rows
    else if opened then
      widths.all (· < row.width) && readable (row.width :: widths) row.opens rows
    else
      match widths.dropWhile (row.width < ·) with
      | [] => false
      | width :: outer => width == row.width && readable (width :: outer) row.opens rows

end Row

def Line.row (settings : Settings) (line : Line) : Row :=
  ⟨((line.text settings).toList.takeWhile (· = ' ')).length, line.clause.isHeader,
    line.clause = .blank⟩

section Rows

variable {settings : Settings} {unit depth : Nat} {clause : Clause} {ls : List Line}

theorem IsName.ne_of_mem {s : String} (h : IsName s) : ∀ c ∈ s.toList, c ≠ ' ' ∧ c ≠ ':' := by
  intro c hc
  have hchar := StubCode.isNameChar_of_isName h c hc
  constructor <;> rintro rfl <;> exact absurd hchar (by decide)

theorem IsName.head {s : String} (h : IsName s) (rest : List Char) :
    ∃ c cs, s.toList ++ rest = c :: cs ∧ c ≠ ' ' := by
  obtain ⟨c, cs, hs⟩ := List.exists_cons_of_ne_nil (StubCode.ne_nil_of_isName h)
  refine ⟨c, cs ++ rest, by rw [hs, List.cons_append], (h.ne_of_mem c ?_).1⟩
  rw [hs]
  exact List.mem_cons_self

/-- The text of a clause is empty or starts with something that can be seen. -/
theorem Clause.Shows.head (h : clause.Shows settings) (hne : clause ≠ .blank) :
    ∃ c cs, (clause.text settings).toList = c :: cs ∧ c ≠ ' ' := by
  cases clause with
  | blank => exact absurd rfl hne
  | ellipsis => exact ⟨'.', ['.', '.'], by simp [Clause.text], by decide⟩
  | otherwise => exact ⟨'e', "lse:".toList, by simp [Clause.text], by decide⟩
  | test c =>
    exact ⟨'i', "f ".toList ++ (conditionText settings c).toList ++ [':'],
      by simp [Clause.text], by decide⟩
  | laterTest c =>
    exact ⟨'e', "lif ".toList ++ (conditionText settings c).toList ++ [':'],
      by simp [Clause.text], by decide⟩
  | classHeader name base =>
    exact ⟨'c', "lass ".toList ++ name.toList ++ '(' :: (base.toList ++ [')', ':']),
      by simp [Clause.text], by decide⟩
  | assignment name value => simpa [Clause.text] using h.1.head (" = ".toList ++ value.toList)
  | member name type => simpa [Clause.text] using h.1.head (": ".toList ++ type.toList)

theorem width_replicate_append {cs : List Char} (h : cs = [] ∨ ∃ c rest, cs = c :: rest ∧ c ≠ ' ')
    (n : Nat) : ((List.replicate n ' ' ++ cs).takeWhile (· = ' ')).length = n := by
  have hblanks : ∀ d ∈ List.replicate n ' ', decide (d = ' ') = true := fun d hd =>
    decide_eq_true (List.eq_of_mem_replicate hd)
  rw [List.takeWhile_append_of_pos hblanks]
  rcases h with rfl | ⟨c, rest, rfl, hc⟩
  · simp
  · rw [List.takeWhile_cons_of_neg (by simpa using hc)]
    simp

/-- A line is as wide as it is deep. -/
theorem width_row (hindent : settings.indent.toList = List.replicate unit ' ') {line : Line}
    (h : line.clause.Shows settings) : (line.row settings).width = line.depth * unit := by
  have hseen : (line.clause.text settings).toList = [] ∨
      ∃ c rest, (line.clause.text settings).toList = c :: rest ∧ c ≠ ' ' := by
    by_cases hblank : line.clause = .blank
    · exact Or.inl (by simp [hblank, Clause.text])
    · exact Or.inr (h.head hblank)
  rw [Line.row, StubCode.toList_lineText hindent]
  exact width_replicate_append hseen _

theorem Laid.nested (hindent : settings.indent.toList = List.replicate unit ' ')
    (h : Laid (Clause.Shows settings) depth ls) :
    Row.Nested unit (ls.map (Line.row settings)) := by
  have hwidth : ∀ line ∈ ls, (line.row settings).width = line.depth * unit :=
    fun line hline => width_row hindent (h.clauses line hline)
  refine ⟨(List.isChain_map _).2 ?_, ?_⟩
  · refine h.leads.imp_of_mem_imp fun line next hline hnext hleads => ?_
    rw [Row.Follows, hwidth line hline, hwidth next hnext]
    rw [Line.Leads, Line.Enters] at hleads
    split at hleads
    next hheader =>
      have hshown : next.clause ≠ .blank := fun hblank => by
        have hzero := h.blank next hnext hblank
        omega
      rw [if_pos (show (line.row settings).opens = true from hheader), hleads, Nat.succ_mul]
      exact ⟨decide_eq_false hshown, rfl⟩
    next hheader =>
      rw [if_neg (show ¬ (line.row settings).opens = true from hheader)]
      exact Or.inr (Nat.mul_le_mul_right unit hleads)
  · intro row hrow
    rw [List.getLast?_map, Option.mem_def, Option.map_eq_some_iff] at hrow
    obtain ⟨line, hline, rfl⟩ := hrow
    exact (h.last line hline).1

def openWidths (unit : Nat) : Nat → List Nat
  | 0 => [0]
  | depth + 1 => (depth + 1) * unit :: openWidths unit depth

theorem openWidths_eq_cons (unit depth : Nat) :
    ∃ outer, openWidths unit depth = depth * unit :: outer := by
  cases depth with
  | zero => exact ⟨[], by simp [openWidths]⟩
  | succ depth => exact ⟨openWidths unit depth, rfl⟩

theorem le_of_mem_openWidths {width : Nat} (h : width ∈ openWidths unit depth) :
    width ≤ depth * unit := by
  induction depth with
  | zero => simpa [openWidths] using h
  | succ depth ih =>
    rcases List.mem_cons.1 h with rfl | h
    · exact Nat.le_refl _
    · exact (ih h).trans (Nat.mul_le_mul_right unit (Nat.le_succ depth))

/-- A line closes the blocks that are deeper than it. -/
theorem dropWhile_openWidths (hunit : 0 < unit) {depth' : Nat} (h : depth' ≤ depth) :
    (openWidths unit depth).dropWhile (depth' * unit < ·) = openWidths unit depth' := by
  induction depth with
  | zero =>
    obtain rfl := Nat.le_zero.1 h
    simp [openWidths]
  | succ depth ih =>
    rcases Nat.eq_or_lt_of_le h with rfl | hlt
    · rw [openWidths, List.dropWhile_cons_of_neg (by simp)]
    · have hdeeper : depth' * unit < (depth + 1) * unit :=
        Nat.mul_lt_mul_of_pos_right hlt hunit
      rw [openWidths, List.dropWhile_cons_of_pos (by simpa using hdeeper)]
      exact ih (Nat.le_of_lt_succ hlt)

section Reading

variable {row : Row} {rest : List Row}

/-- Behind a header a row opens a block at the next depth. -/
theorem readable_opened (hunit : 0 < unit) (hblank : row.blank = false)
    (hwidth : row.width = (depth + 1) * unit) :
    Row.readable (openWidths unit depth) true (row :: rest) =
      Row.readable (openWidths unit (depth + 1)) row.opens rest := by
  have hwider : (openWidths unit depth).all (· < row.width) = true := by
    refine List.all_eq_true.2 fun width hmem => decide_eq_true ?_
    have hle := le_of_mem_openWidths hmem
    rw [hwidth, Nat.succ_mul]
    omega
  rw [Row.readable, if_neg (by simp [hblank]), if_pos rfl, hwider, Bool.true_and, hwidth,
    openWidths]

/-- Elsewhere a row that is no deeper goes on at its own depth. -/
theorem readable_of_le (hunit : 0 < unit) (hblank : row.blank = false) {depth' : Nat}
    (hwidth : row.width = depth' * unit) (hle : depth' ≤ depth) :
    Row.readable (openWidths unit depth) false (row :: rest) =
      Row.readable (openWidths unit depth') row.opens rest := by
  obtain ⟨outer, hwidths⟩ := openWidths_eq_cons unit depth'
  rw [Row.readable, if_neg (by simp [hblank]), if_neg (by simp), hwidth,
    dropWhile_openWidths hunit hle, hwidths]
  simp

end Reading

/-- Where lines lead to each other, each is read into one of the blocks that are open. -/
theorem readable_rows (hunit : 0 < unit) {opened : Bool}
    (hleads : ls.IsChain Line.Leads) (hlast : ∀ line ∈ ls.getLast?, line.clause.isHeader = false)
    (hblank : ∀ line ∈ ls, line.clause = .blank → line.depth = 0)
    (hwidth : ∀ line ∈ ls, (line.row settings).width = line.depth * unit)
    (hopened : opened = true → ls ≠ []) (hfirst : ∀ line ∈ ls.head?, line.Enters depth opened) :
    Row.readable (openWidths unit depth) opened (ls.map (Line.row settings)) = true := by
  -- The blocks that are open are those at the depth of the last line that is not blank.
  induction ls generalizing depth opened with
  | nil =>
    cases opened with
    | false => rfl
    | true => exact absurd rfl (hopened rfl)
  | cons line rest ih =>
    obtain ⟨hnext, hleadsRest⟩ := List.isChain_cons.1 hleads
    have hread : ∀ {depth : Nat} {opened : Bool}, (opened = true → rest ≠ []) →
        (∀ next ∈ rest.head?, next.Enters depth opened) →
        Row.readable (openWidths unit depth) opened (rest.map (Line.row settings)) = true :=
      ih hleadsRest (fun last hmem => hlast last (List.mem_getLast?_cons hmem))
        (fun l hl => hblank l (List.mem_cons_of_mem _ hl))
        (fun l hl => hwidth l (List.mem_cons_of_mem _ hl))
    have hrest : line.clause.isHeader = true → rest ≠ [] := by
      rintro hheader rfl
      rw [hlast line rfl] at hheader
      cases hheader
    have hdepth : line.Enters depth opened := hfirst line rfl
    have hwidthLine := hwidth line List.mem_cons_self
    rw [List.map_cons]
    by_cases hclause : line.clause = .blank
    · have hzero : line.depth = 0 := hblank line List.mem_cons_self hclause
      cases opened with
      | true => exact absurd (hzero.symm.trans hdepth) (Nat.succ_ne_zero depth).symm
      | false =>
        have hskipped : (line.row settings).blank = true := decide_eq_true hclause
        rw [Row.readable, if_pos hskipped]
        refine hread (by simp) fun next hmem => ?_
        have hle : next.depth ≤ line.depth := by
          simpa [Line.Leads, Line.Enters, hclause, Clause.isHeader] using hnext next hmem
        exact hle.trans hdepth
    · have hshown : (line.row settings).blank = false := decide_eq_false hclause
      cases opened with
      | true =>
        have hdeeper : line.depth = depth + 1 := hdepth
        rw [readable_opened hunit hshown (hdeeper ▸ hwidthLine), ← hdeeper]
        exact hread hrest hnext
      | false =>
        rw [readable_of_le hunit hshown hwidthLine hdepth]
        exact hread hrest hnext

theorem Laid.readable (hunit : 0 < unit)
    (hindent : settings.indent.toList = List.replicate unit ' ')
    (h : Laid (Clause.Shows settings) 0 ls) :
    Row.readable [0] false (ls.map (Line.row settings)) = true := by
  have hfirst : ∀ line ∈ ls.head?, line.Enters 0 false := fun line hline =>
    (h.first line hline).le
  exact readable_rows hunit h.leads (fun line hline => (h.last line hline).1) h.blank
    (fun line hline => width_row hindent (h.clauses line hline)) (by simp) hfirst

end Rows

section Texts

variable {settings : Settings} {unit : Nat} {clause : Clause}

/-- The expressions of the settings stay on their lines, and no line that ends with the base class
looks as if it opened a block. -/
structure Expressions (settings : Settings) : Prop where
  baseClass : StubCode.OneLine settings.baseClass
  baseClass_ne : settings.baseClass.toList.getLast? ≠ some ':'
  versionVariable : StubCode.OneLine settings.versionVariable

theorem getLast?_append {s t : String} (ht : t.toList ≠ []) :
    (s ++ t).toList.getLast? = t.toList.getLast? := by
  rw [String.toList_append, List.getLast?_append_of_ne_nil _ ht]

theorem getLast?_append_ne {s t : String} (hs : s.toList.getLast? ≠ some ':')
    (ht : t.toList.getLast? ≠ some ':') : (s ++ t).toList.getLast? ≠ some ':' := by
  by_cases hnil : t.toList = []
  · rwa [String.toList_append, hnil, List.append_nil]
  · rwa [getLast?_append hnil]

theorem IsName.getLast?_ne {s : String} (h : IsName s) : s.toList.getLast? ≠ some ':' :=
  fun hlast => (h.ne_of_mem ':' (List.mem_of_getLast? hlast)).2 rfl

theorem annotation_getLast?_ne {f : Field} (h : IsName f.kind) :
    f.annotation.toList.getLast? ≠ some ':' := by
  rw [Field.annotation]
  split
  · exact h.getLast?_ne
  · rw [getLast?_append (by decide)]
    decide
  · rw [getLast?_append (by decide)]
    decide

/-- Only headers end with a colon. -/
theorem Clause.Shows.getLast?_text (h : clause.Shows settings) (hsettings : Expressions settings) :
    (clause.text settings).toList.getLast? = some ':' ↔ clause.isHeader = true := by
  cases clause with
  | blank => exact iff_of_false (by simp [Clause.text]) Bool.false_ne_true
  | ellipsis => exact iff_of_false (by simp [Clause.text]) Bool.false_ne_true
  | test c => exact iff_of_true (getLast?_append (by decide)) rfl
  | laterTest c => exact iff_of_true (getLast?_append (by decide)) rfl
  | otherwise => exact iff_of_true (by simp [Clause.text]) rfl
  | classHeader name base => exact iff_of_true (getLast?_append (by decide)) rfl
  | assignment name value =>
    have hvalue : value.toList.getLast? ≠ some ':' := by
      rcases h.2 with hvalue | rfl
      · exact hvalue.getLast?_ne
      · exact hsettings.baseClass_ne
    have hname : (name ++ " = ").toList.getLast? ≠ some ':' :=
      getLast?_append_ne h.1.getLast?_ne (by decide)
    exact iff_of_false (getLast?_append_ne hname hvalue) Bool.false_ne_true
  | member name type =>
    obtain ⟨hname, f, hkind, rfl⟩ := h
    have hfirst : (name ++ ": ").toList.getLast? ≠ some ':' :=
      getLast?_append_ne hname.getLast?_ne (by decide)
    exact iff_of_false (getLast?_append_ne hfirst (annotation_getLast?_ne hkind)) Bool.false_ne_true

theorem Clause.Shows.named (h : clause.Shows settings) (hsettings : Expressions settings) :
    StubCode.Named [] clause := by
  cases clause with
  | classHeader name base =>
    refine ⟨h.1, ?_⟩
    rcases h.2 with hbase | rfl
    · exact StubCode.oneLine_of_isName hbase
    · exact hsettings.baseClass
  | assignment name value =>
    refine ⟨h.1, ?_⟩
    rcases h.2 with hvalue | rfl
    · exact StubCode.oneLine_of_isName hvalue
    · exact hsettings.baseClass
  | member name type =>
    obtain ⟨hname, f, hkind, rfl⟩ := h
    exact ⟨hname, StubCode.oneLine_annotation (StubCode.oneLine_of_isName hkind)⟩
  | _ => trivial

/-- The text of a line tells its row. -/
theorem ofText_lineText (hindent : settings.indent.toList = List.replicate unit ' ')
    (hsettings : Expressions settings) {line : Line} (h : line.clause.Shows settings)
    (hblank : line.clause = .blank → line.depth = 0) :
    Row.ofText (line.text settings).toList = line.row settings := by
  have htext := StubCode.toList_lineText hindent line
  have hopens : (line.text settings).toList.getLast? = some ':' ↔ line.clause.isHeader = true := by
    rw [← h.getLast?_text hsettings, htext]
    by_cases hclause : line.clause = .blank
    · simp [hclause, hblank hclause, Clause.text]
    · obtain ⟨c, cs, hcs, -⟩ := h.head hclause
      rw [hcs, List.getLast?_append_of_ne_nil _ (List.cons_ne_nil c cs)]
  have hshown : (line.text settings).toList.all (· = ' ') = decide (line.clause = .blank) := by
    rw [htext]
    by_cases hclause : line.clause = .blank
    · simp [hclause, hblank hclause, Clause.text]
    · obtain ⟨c, cs, hcs, hc⟩ := h.head hclause
      simp [hcs, hc, hclause]
  rw [Row.ofText, Line.row, hshown, Row.mk.injEq, Bool.eq_iff_iff, decide_eq_true_iff]
  exact ⟨rfl, hopens, rfl⟩

end Texts

/-- The lines behind the preamble. Two blank ones stand before the first statement. -/
def printed (settings : Settings) (m : MergedSchema) : List Line :=
  ⟨0, .blank⟩ :: ⟨0, .blank⟩ :: lines settings m

def afterPreamble (settings : Settings) (m : MergedSchema) : String :=
  Text.unlines ((printed settings m).map (·.text settings))

def rows (settings : Settings) (m : MergedSchema) : List Row :=
  (printed settings m).map (Line.row settings)

theorem laid_printed {settings : Settings} {m : MergedSchema}
    (h : ∀ i ∈ m.body.items, ∀ n ∈ i.names, IsName n) :
    Laid (Clause.Shows settings) 0 (printed settings m) := by
  have hblank : Laid (Clause.Shows settings) 0 [⟨0, .blank⟩] :=
    .single rfl (fun _ => rfl) trivial
  exact hblank.append (hblank.append (laid_lines h))

/-- The blocks of a stub are neither empty nor ill-nested and are read as blocks, if the merged
schema has names for names and the indentation is blanks. They are the blocks of the lines that are
printed and, if the expressions of the settings are of one line, of the lines of the text. -/
theorem blocks_nested {settings : Settings} {unit : Nat} {m : MergedSchema} (hunit : 0 < unit)
    (hindent : settings.indent.toList = List.replicate unit ' ')
    (hnames : ∀ i ∈ m.body.items, ∀ n ∈ i.names, IsName n) :
    text settings m = preamble settings ++ afterPreamble settings m ∧
      Row.Nested unit (rows settings m) ∧ Row.readable [0] false (rows settings m) = true ∧
      (Expressions settings →
        (Text.lines (afterPreamble settings m).toList).map Row.ofText = rows settings m) := by
  have hlaid : Laid (Clause.Shows settings) 0 (printed settings m) := laid_printed hnames
  refine ⟨StubCode.text_eq_unlines settings m, hlaid.nested hindent,
    hlaid.readable hunit hindent, fun hsettings => ?_⟩
  have hone : ∀ l ∈ (printed settings m).map (·.text settings), StubCode.OneLine l := by
    intro l hl
    obtain ⟨line, hline, rfl⟩ := List.mem_map.1 hl
    exact StubCode.oneLine_lineText hindent hsettings.versionVariable
      ((hlaid.clauses line hline).named hsettings)
  rw [afterPreamble, StubCode.lines_unlines hone, List.map_map, List.map_map, rows]
  refine List.map_congr_left fun line hline => ?_
  exact ofText_lineText hindent hsettings (hlaid.clauses line hline) (hlaid.blank line hline)

/-- A merged schema that no merge builds: its root is guarded, its first guard is empty, others
change nothing, an alias has no cases, and a field is named like a keyword. -/
def oddSchema : MergedSchema where
  name := "Odd"
  versions := .empty
  body := ⟨.atLeast ⟨[3]⟩,
    .guard (.atMost ⟨[3, 1]⟩) .nil
      (.guard .always (.guard .always (.item (.baseAlias ⟨"_shapeBase", []⟩) .nil) .nil)
        (.item (.declaration ⟨"shape", [], .aliased "_shapeBase", .empty, .always,
          ⟨.always, .guard (.atLeast ⟨[3, 2]⟩) .nil (.item ⟨"int", "else", .optional⟩ .nil)⟩⟩)
          (.item (.declaration ⟨"blob", [], .fixed .root, .empty, .always, ⟨.always, .nil⟩⟩)
            .nil)))⟩

def twoBlanks : Settings where
  indent := "  "

theorem blocks_oddSchema :
    0 < 2 ∧ twoBlanks.indent.toList = List.replicate 2 ' ' ∧
      (∀ i ∈ oddSchema.body.items, ∀ n ∈ i.names, IsName n) ∧
      Row.Nested 2 (rows twoBlanks oddSchema) ∧
      (Text.lines (afterPreamble twoBlanks oddSchema).toList).map Row.ofText =
        rows twoBlanks oddSchema := by
  have hindent : twoBlanks.indent.toList = List.replicate 2 ' ' := by decide
  have hnames : ∀ i ∈ oddSchema.body.items, ∀ n ∈ i.names, IsName n := by decide +kernel
  obtain ⟨-, hnested, -, hrows⟩ :=
    blocks_nested (by decide : 0 < 2) hindent hnames
  exact ⟨by decide, hindent, hnames, hnested, hrows ⟨by decide, by decide, by decide⟩⟩

example : (lines twoBlanks oddSchema).map (·.text twoBlanks) =
    ["if sys.version_info >= (3,):", "  if sys.version_info <= (3, 1):", "    ...",
      "  class shape(_shapeBase):", "    if sys.version_info >= (3, 2):", "      ...",
      "    else: typing.Optional[int]", "  class blob(AST):", "    ..."] := by
  decide +kernel

end SchemaLineage.Stub
