import SchemaLineage.Proofs.GuardPlacement
import SchemaLineage.Proofs.StubCode

/-!
What the stub of a merge means. The names of a merge come from its snapshots, so its stub can be
read where their names are names. An alias stands under the existence of its declaration; at the
versions where it shows, exactly one of its cases holds. Executing the stub at a version that was
merged therefore does, in order, what the items do that the merge shows there.
-/
namespace SchemaLineage

open StubCode

def keywords : List String :=
  ["False", "None", "True", "and", "as", "assert", "async", "await", "break", "class", "continue",
    "def", "del", "elif", "else", "except", "finally", "for", "from", "global", "if", "import",
    "in", "is", "lambda", "nonlocal", "not", "or", "pass", "raise", "return", "try", "while",
    "with", "yield"]

def ReadableNames (reserved : List String) (snapshots : List Snapshot) : Prop :=
  ∀ s ∈ snapshots, ∀ d ∈ s.schema.declarations, isName reserved d.name.toList = true ∧
    ∀ f ∈ d.fields, isName reserved f.name.toList = true ∧ isName reserved f.kind.toList = true

/-- What the items of a merge stand for at a version: an alias for the assignment of the base it has
there, a declaration for its class with the fields it shows there. -/
def StubCode.Means (settings : Settings) (v : Version) : MergedItem → Executed → Prop
  | .baseAlias a, e => ∃ base, a.resolve v = some base ∧
      e = .assignment a.name.toList (Stub.baseText settings base).toList
  | .declaration d, e =>
      e = .classStatement d.name.toList (Stub.baseRefText settings d.base).toList
        ((d.body.evaluate v).map fun f => .member f.name.toList f.annotation.toList)

/-- The base of a declaration is a declaration of the same schema. -/
theorem Schema.exists_declaration_of_base {s : Schema} {d : Declaration}
    (hd : d ∈ s.declarations) {n : String} (hbase : d.base = .named n) :
    ∃ d' ∈ s.declarations, d'.name = n := by
  obtain ⟨t, ht, hd⟩ := List.mem_flatMap.1 hd
  unfold TypeDef.declarations at hd
  split at hd
  · rename_i sum hbody
    have hsum : ⟨t.name, .sum, .root, sum.attributes⟩ ∈ t.declarations := by
      rw [TypeDef.declarations, hbody]
      exact List.mem_cons_self
    rcases List.mem_cons.1 hd with rfl | hd
    · cases hbase
    · obtain ⟨c, -, rfl⟩ := List.mem_map.1 hd
      cases hbase
      exact ⟨_, List.mem_flatMap.2 ⟨t, ht, hsum⟩, rfl⟩
  · obtain rfl := List.mem_singleton.1 hd
    cases hbase

namespace Merge

variable {reserved : List String} {settings : Settings} {snapshots : List Snapshot}
  {h : History} {p : Part} {v : Version}

theorem toList_aliasName (n : String) :
    (aliasName n).toList = '_' :: (n.toList ++ "Base".toList) := by
  simp [aliasName]

theorem aliasName_not_mem_keywords (n : String) : aliasName n ∉ keywords := by
  have hheads : ∀ w ∈ keywords, w.toList.head? ≠ some '_' := by decide
  intro hmem
  apply hheads _ hmem
  rw [toList_aliasName]
  rfl

theorem isName_aliasName {n : String} (hnot : aliasName n ∉ reserved)
    (hn : isName reserved n.toList = true) : isName reserved (aliasName n).toList = true := by
  have hchars := toList_aliasName n
  have hall : ∀ c ∈ (aliasName n).toList, isNameChar c = true := by
    intro c hc
    rw [hchars, List.mem_cons, List.mem_append] at hc
    rcases hc with rfl | hc | hc
    · rfl
    · exact isNameChar_of_isName hn c hc
    · exact List.all_eq_true.1 rfl c hc
  simp only [isName, Bool.and_eq_true, Bool.not_eq_true', String.ofList_toList]
  refine ⟨⟨?_, List.all_eq_true.2 hall⟩, ?_⟩
  · rw [hchars]
    rfl
  · simpa using hnot

section Names

variable (hnames : ReadableNames reserved snapshots) (hh : h ∈ histories (sorted snapshots))
include hnames hh

theorem readable_of_mem_entries {d : Declaration} (hd : (v, d) ∈ h.entries) :
    isName reserved h.name.toList = true ∧
      (∀ f ∈ d.fields, isName reserved f.name.toList = true ∧
        isName reserved f.kind.toList = true) ∧
      ∀ n, d.base = .named n → isName reserved n.toList = true := by
  obtain ⟨s, hs, -, hd, hname⟩ := (declaredAs_iff hh).2 hd
  have hreadable := hnames s hs
  refine ⟨hname ▸ (hreadable d hd).1, (hreadable d hd).2, fun n hbase => ?_⟩
  obtain ⟨d', hd', rfl⟩ := Schema.exists_declaration_of_base hd hbase
  exact (hreadable d' hd').1

theorem oneLine_baseText (hbaseClass : OneLine settings.baseClass) {s : Span Base}
    (hs : s ∈ h.bases) : OneLine (Stub.baseText settings s.value) := by
  obtain ⟨v, d, hd, hvalue⟩ := History.exists_entry_of_mem_spansBy hs
  obtain ⟨-, -, hnamed⟩ := readable_of_mem_entries hnames hh hd
  cases hbase : s.value with
  | root => exact hbaseClass
  | named n => exact oneLine_of_isName (hnamed n (hvalue.trans hbase))

/-- The items of a part are readable. -/
theorem namedItem_of_describes (hreserved : aliasName h.name ∉ reserved)
    (hbaseClass : OneLine settings.baseClass) (hreg : h.Regular)
    (hp : p.Describes (versionsOf (sorted snapshots)) h) {i : MergedItem} (hi : i ∈ p.items) :
    NamedItem reserved settings i := by
  obtain ⟨e, he⟩ := List.exists_mem_of_ne_nil _ hreg.ne_nil
  have hname := (readable_of_mem_entries hnames hh he).1
  have halias := isName_aliasName hreserved hname
  cases i with
  | baseAlias a =>
    obtain ⟨hname', hcases⟩ := hp.cases_of_mem_items hi
    intro c hc
    obtain ⟨s, hs, hcase⟩ := exists_of_mem_of_forall₂ hcases.flip hc
    rw [hname', hcase.value]
    exact ⟨⟨halias, oneLine_baseText hnames hh hbaseClass hs⟩, by simp [AssignsAlias, aliasName]⟩
  | declaration d =>
    obtain rfl := Part.mem_items_declaration.1 hi
    refine ⟨⟨⟨hp.name ▸ hname, ?_⟩, trivial⟩, fun f hf => ?_⟩
    · rcases baseOf_ok hp.base with ⟨only, hbases, hbase, -⟩ | ⟨cases, -, -, hbase, -⟩
      · rw [hbase]
        exact oneLine_baseText hnames hh hbaseClass (hbases ▸ List.mem_singleton_self only)
      · rw [hbase]
        exact oneLine_of_isName halias
    · obtain ⟨v, d, hd, hfd⟩ := ((exactGuards_of_describes hh hp).mem_fields f).1 hf
      rw [hp.name, declaredAs_iff hh] at hd
      obtain ⟨-, hfields, -⟩ := readable_of_mem_entries hnames hh hd
      obtain ⟨hfieldName, hkind⟩ := hfields f hfd
      exact ⟨⟨hfieldName, oneLine_annotation (oneLine_of_isName hkind)⟩, trivial⟩

end Names

/-- Where a part shows, the code of each of its items does one thing, which is what it means. -/
theorem exists_executed_of_mem_items {all : VersionSet} (hreg : h.Regular)
    (hp : p.Describes all h) (hv : v ∈ h.observed) {i : MergedItem} (hi : i ∈ p.items) :
    ∃ e, (itemCode settings i).executed (tupleOf v) false = [e] ∧ Means settings v i e := by
  cases i with
  | baseAlias a =>
    obtain ⟨-, hcases⟩ := hp.cases_of_mem_items hi
    obtain ⟨d, hd⟩ := History.mem_observed.1 hv
    obtain ⟨c, hc, hvalue⟩ := filter_cases_eq_singleton Declaration.base hcases hreg hd
    refine ⟨_, executed_aliasCode settings hc, c.value, ?_, rfl⟩
    rw [BaseAlias.resolve, selectCase?_entries Declaration.base hcases hreg hd, hvalue]
  | declaration d => exact ⟨_, executed_classCode settings d v, rfl⟩

end Merge

theorem StubCode.forall₂_flatMap {α β : Type} {R : α → β → Prop} {f : α → List β} {xs : List α}
    (h : ∀ x ∈ xs, ∃ y, f x = [y] ∧ R x y) : List.Forall₂ R xs (xs.flatMap f) := by
  induction xs with
  | nil => exact .nil
  | cons x xs ih =>
    obtain ⟨y, hy, hR⟩ := h x List.mem_cons_self
    rw [List.flatMap_cons, hy]
    exact .cons hR (ih fun x' hx' => h x' (List.mem_cons_of_mem _ hx'))

/-- If the names of the snapshots are names and the reserved words, such as the keywords, leave the
names of aliases alone, the text after the preamble of a stub is code that, at each version of the
merge, does what the items do that show there. -/
theorem stub_executes_evaluation {reserved : List String} {snapshots : List Snapshot}
    {m : MergedSchema} {settings : Settings} (hok : merge snapshots = .ok m)
    (hreserved : ∀ n, Merge.aliasName n ∉ reserved)
    (hnames : ReadableNames reserved snapshots) (hindent : settings.indent ≠ "")
    (hblank : ∀ c ∈ settings.indent.toList, c = ' ') (hbase : OneLine settings.baseClass)
    (hsubject : OneLine settings.versionVariable) :
    ∃ rest code, Stub.text settings m = Stub.preamble settings ++ rest ∧
      Code.read? reserved settings.versionVariable.toList rest.toList = some code ∧
      ∀ v ∈ m.versions, List.Forall₂ (Means settings v) (m.body.evaluate v)
        (code.executed (tupleOf v) false) := by
  obtain ⟨parts, hm⟩ := Merge.exists_assembled hok
  have hunit : 0 < settings.indent.toList.length := by
    rw [List.length_pos_iff, ne_eq, String.toList_eq_nil_iff]
    exact hindent
  have hnamed : ∀ i ∈ m.body.items, NamedItem reserved settings i := by
    intro i hi
    rw [hm.items_eq, List.mem_flatMap] at hi
    obtain ⟨p, hp, hmem⟩ := hi
    obtain ⟨h, hh, hdesc⟩ := hm.exists_history_of_mem hp
    rw [hm.versions] at hdesc
    exact Merge.namedItem_of_describes hnames hh (hreserved h.name) hbase (hm.ordered.regular hh)
      hdesc hmem
  obtain ⟨rest, htext, hread⟩ := read?_stub hunit (List.eq_replicate_of_mem hblank) hsubject hnamed
  refine ⟨rest, _, htext, hread, fun v hv => ?_⟩
  rw [(executed_bodyCode (fun q _ => startsLater_itemCode settings q.2) v).2, visible_asGuard]
  apply forall₂_flatMap
  intro i hi
  rw [hm.evaluate_body, List.mem_flatMap] at hi
  obtain ⟨p, hp, hmem⟩ := hi
  obtain ⟨hp, hholds⟩ := List.mem_filter.1 hp
  obtain ⟨h, hh, hdesc⟩ := hm.exists_history_of_mem hp
  have hobserved := (hdesc.holds_existence_iff hv).1 hholds
  exact Merge.exists_executed_of_mem_items (hm.ordered.regular hh) hdesc hobserved hmem

theorem stub_executes_evaluation_circleLineage :
    ∃ m rest code, merge circleLineage = .ok m ∧ Stub.text {} m = Stub.preamble {} ++ rest ∧
      Code.read? keywords "sys.version_info".toList rest.toList = some code ∧
      ∀ v ∈ m.versions, List.Forall₂ (Means {} v) (m.body.evaluate v)
        (code.executed (tupleOf v) false) := by
  obtain ⟨m, hm⟩ := exists_merge_circleLineage
  have hnames : ReadableNames keywords circleLineage := by
    unfold ReadableNames
    decide +kernel
  have hblank : ∀ c ∈ "    ".toList, c = ' ' := by simp
  obtain ⟨rest, code, h⟩ := @stub_executes_evaluation keywords circleLineage m {} hm
    Merge.aliasName_not_mem_keywords hnames (by decide) hblank (by decide) (by decide)
  exact ⟨m, rest, code, hm, h⟩

end SchemaLineage
