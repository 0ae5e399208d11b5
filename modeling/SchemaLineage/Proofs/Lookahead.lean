import SchemaLineage.Proofs.GrammarReading

/-!
How far ahead the readers look. Most readers look at the next token alone; where the attributes of a
type may stand, one more token tells whether the word starts them. What a reader takes off the
front, or which token it blames, is therefore the same before any other tokens that look the same.
Main statement: a token that the reader of modules blames is blamed whatever comes after it.
-/
namespace SchemaLineage

namespace Reading

open Grammar

/-- What a reader sees of the tokens after its own: the next token, or besides it whether the
attributes of a type start there. -/
inductive Sight where
  | next
  | attributes

def atAttributes (ts : List LocatedToken) : Bool :=
  ((afterWord? "attributes" ts).bind afterOpen?).isSome

def Sight.Same : Sight → List LocatedToken → List LocatedToken → Prop
  | next, ts, ts' => ts.head? = ts'.head?
  | attributes, ts, ts' => ts.head? = ts'.head? ∧ atAttributes ts = atAttributes ts'

namespace Sight

variable {sight : Sight} {ts ts' : List LocatedToken}

theorem same_refl (sight : Sight) (ts : List LocatedToken) : sight.Same ts ts := by
  cases sight with
  | next => exact rfl
  | attributes => exact ⟨rfl, rfl⟩

theorem Same.head (h : sight.Same ts ts') : ts.head? = ts'.head? := by
  cases sight with
  | next => exact h
  | attributes => exact h.1

theorem Same.eq_nil (h : sight.Same [] ts') : ts' = [] :=
  List.head?_eq_none_iff.1 h.head.symm

theorem Same.exists_eq_cons {t : LocatedToken} (h : sight.Same (t :: ts) ts') :
    ∃ tail, ts' = t :: tail :=
  List.head?_eq_some_iff.1 h.head.symm

theorem isSome_afterOpen?_of_head (h : ts.head? = ts'.head?) :
    (afterOpen? ts).isSome = (afterOpen? ts').isSome := by
  cases ts with
  | nil => rw [List.head?_eq_none_iff.1 h.symm]
  | cons t ts =>
    obtain ⟨ts', rfl⟩ := List.head?_eq_some_iff.1 h.symm
    obtain ⟨token, p⟩ := t
    cases token <;> rfl

/-- Behind a token that both have, one token more is seen. -/
theorem same_cons (sight : Sight) (t : LocatedToken) (h : ts.head? = ts'.head?) :
    sight.Same (t :: ts) (t :: ts') := by
  cases sight with
  | next => exact rfl
  | attributes =>
    refine ⟨rfl, ?_⟩
    by_cases ht : t.token = .name "attributes"
    · simp [atAttributes, afterWord?, ht, isSome_afterOpen?_of_head h]
    · simp [atAttributes, afterWord?, ht]

/-- Before any token but a name no attributes are to be seen. -/
theorem same_of_not_name (h : ts.head? = ts'.head?) (hname : ¬ StartsWithName (kinds ts)) :
    sight.Same ts ts' := by
  cases ts with
  | nil =>
    rw [List.head?_eq_none_iff.1 h.symm]
    exact same_refl sight []
  | cons t ts =>
    obtain ⟨ts', rfl⟩ := List.head?_eq_some_iff.1 h.symm
    have ht : t.token ≠ .name "attributes" := fun ht => hname ⟨_, _, congrArg (· :: _) ht⟩
    cases sight with
    | next => exact rfl
    | attributes => exact ⟨rfl, by simp [atAttributes, afterWord?, ht]⟩

end Sight

/-- Whatever stands behind the front, if it looks as the rest does: all the tokens look the same,
and reading them has that outcome. -/
def Keeps {β : Type} (before sight : Sight) (read : List LocatedToken → Except Mismatch β)
    (front rest : List LocatedToken) (outcome : List LocatedToken → Except Mismatch β) : Prop :=
  ∀ rest', sight.Same rest rest' →
    before.Same (front ++ rest) (front ++ rest') ∧ read (front ++ rest') = outcome rest'

/-- The reader, at these tokens, goes by the front that it takes off, or by the front before the
token that it blames, and sees no more of the tokens behind than it may. What it makes of the front
and the tokens that are left are `put` together to its result. -/
inductive Local {α β : Type} (put : α → List LocatedToken → β) (before after : Sight)
    (read : List LocatedToken → Except Mismatch β) (ts : List LocatedToken) : Prop
  | taken (front rest : List LocatedToken) (a : α) (split : ts = front ++ rest)
      (keeps : Keeps before after read front rest fun rest => .ok (put a rest))
  | blamed (front rest : List LocatedToken) (expected : Expectation) (split : ts = front ++ rest)
      (keeps : Keeps before .next read front rest fun rest => .error ⟨expected, rest⟩)

section Keeps

variable {β δ : Type} {before middle sight : Sight}
  {read read' : List LocatedToken → Except Mismatch β} {front rest : List LocatedToken}
  {outcome : List LocatedToken → Except Mismatch β}

theorem Keeps.eq (h : Keeps before sight read front rest outcome) :
    read (front ++ rest) = outcome rest :=
  (h rest (Sight.same_refl sight rest)).2

theorem Keeps.congr (h : Keeps before sight read' front rest outcome)
    (hread : ∀ ts, before.Same (front ++ rest) ts → read ts = read' ts) :
    Keeps before sight read front rest outcome := by
  intro rest' hrest
  obtain ⟨hsame, heq⟩ := h rest' hrest
  exact ⟨hsame, (hread _ hsame).trans heq⟩

theorem Keeps.cons (before : Sight) {t : LocatedToken}
    (h : Keeps .next sight read' front rest outcome) (hread : ∀ ts, read (t :: ts) = read' ts) :
    Keeps before sight read (t :: front) rest outcome := by
  intro rest' hrest
  obtain ⟨hsame, heq⟩ := h rest' hrest
  exact ⟨Sight.same_cons before t hsame, (hread _).trans heq⟩

/-- What a second reader keeps behind the front of a first one. -/
theorem Keeps.bind {f : β → Except Mismatch δ} {front' rest' : List LocatedToken}
    {outcome' : List LocatedToken → Except Mismatch δ}
    (h : Keeps before middle read front (front' ++ rest') outcome)
    (hf : Keeps middle sight (fun ts => outcome ts >>= f) front' rest' outcome') :
    Keeps before sight (fun ts => read ts >>= f) (front ++ front') rest' outcome' := by
  intro ts hts
  obtain ⟨hsame', heq'⟩ := hf ts hts
  obtain ⟨hsame, heq⟩ := h _ hsame'
  rw [List.append_assoc, List.append_assoc]
  exact ⟨hsame, (congrArg (· >>= f) heq).trans heq'⟩

theorem Keeps.mono {before' sight' : Sight} (h : Keeps before sight read front rest outcome)
    (hbefore : ∀ ts ts', before.Same ts ts' → before'.Same ts ts')
    (hsight : ∀ ts ts', sight'.Same ts ts' → sight.Same ts ts') :
    Keeps before' sight' read front rest outcome := by
  intro rest' hrest
  obtain ⟨hsame, heq⟩ := h rest' (hsight _ _ hrest)
  exact ⟨hbefore _ _ hsame, heq⟩

end Keeps

namespace Local

variable {α β γ δ : Type} {put : α → List LocatedToken → β} {put' : γ → List LocatedToken → δ}
  {before middle after sight : Sight} {read read' : List LocatedToken → Except Mismatch β}
  {t : LocatedToken} {ts : List LocatedToken}

/-- Where nothing is read nothing changes. -/
theorem nothing (a : α) : Local put sight sight (fun ts => .ok (put a ts)) ts :=
  .taken [] ts a rfl fun _ h => ⟨h, rfl⟩

theorem blame (e : Expectation) :
    Local put .next after (fun ts => (.error ⟨e, ts⟩ : Except Mismatch β)) ts :=
  .blamed [] ts e rfl fun _ h => ⟨h, rfl⟩

/-- A reader is local where it does what a local reader does. -/
theorem congr (h : Local put before after read' ts)
    (hread : ∀ ts', before.Same ts ts' → read ts' = read' ts') :
    Local put before after read ts := by
  cases h with
  | taken front rest a split keeps => exact .taken front rest a split (keeps.congr (split ▸ hread))
  | blamed front rest e split keeps =>
    exact .blamed front rest e split (keeps.congr (split ▸ hread))

theorem atEnd (h : Local put .next after read' []) (hread : read [] = read' []) :
    Local put .next after read [] := by
  refine h.congr fun ts' hts => ?_
  rw [hts.eq_nil]
  exact hread

/-- The first token tells the reader to do what a local one does. -/
theorem atToken (h : Local put .next after read' (t :: ts))
    (hread : ∀ tail, read (t :: tail) = read' (t :: tail)) :
    Local put .next after read (t :: ts) := by
  refine h.congr fun ts' hts => ?_
  obtain ⟨tail, rfl⟩ := hts.exists_eq_cons
  exact hread tail

/-- A reader that goes on as a local one behind its first token. -/
theorem cons (before : Sight) (h : Local put .next after read' ts)
    (hread : ∀ ts', read (t :: ts') = read' ts') : Local put before after read (t :: ts) := by
  cases h with
  | taken front rest a split keeps =>
    exact .taken (t :: front) rest a (congrArg (t :: ·) split) (keeps.cons before hread)
  | blamed front rest e split keeps =>
    exact .blamed (t :: front) rest e (congrArg (t :: ·) split) (keeps.cons before hread)

/-- Readers one after the other, if the first sees no more than the second keeps. -/
theorem bind {f : β → Except Mismatch δ} (h : Local put before middle read ts)
    (hf : ∀ a rest, read ts = .ok (put a rest) →
      Local put' middle after (fun ts => f (put a ts)) rest) :
    Local put' before after (fun ts => read ts >>= f) ts := by
  cases h with
  | taken front rest a split keeps =>
    subst split
    cases hf a rest keeps.eq with
    | taken front' rest' b split keeps' =>
      subst split
      exact .taken (front ++ front') rest' b (List.append_assoc ..).symm (keeps.bind keeps')
    | blamed front' rest' e split keeps' =>
      subst split
      exact .blamed (front ++ front') rest' e (List.append_assoc ..).symm (keeps.bind keeps')
  | blamed front rest e split keeps =>
    refine .blamed front rest e split fun rest' h => ?_
    obtain ⟨hsame, heq⟩ := keeps rest' h
    rw [heq]
    exact ⟨hsame, rfl⟩

theorem next (h : Local put before after read ts) : Local put .next after read ts := by
  cases h with
  | taken front rest a split keeps =>
    exact .taken front rest a split (keeps.mono (fun _ _ h => h.head) fun _ _ h => h)
  | blamed front rest e split keeps =>
    exact .blamed front rest e split (keeps.mono (fun _ _ h => h.head) fun _ _ h => h)

theorem ofNext (h : Local put before .next read ts) : Local put before after read ts := by
  cases h with
  | taken front rest a split keeps =>
    exact .taken front rest a split (keeps.mono (fun _ _ h => h) fun _ _ h => h.head)
  | blamed front rest e split keeps => exact .blamed front rest e split keeps

end Local

section Readers

theorem eq_cons_of_afterWord? {word : String} {ts rest : List LocatedToken}
    (h : afterWord? word ts = some rest) : ∃ t, t.token = .name word ∧ ts = t :: rest := by
  unfold afterWord? at h
  split at h
  · cases h
  · split at h
    · rename_i ht
      cases h
      exact ⟨_, ht, rfl⟩
    · cases h

theorem eq_cons_of_afterOpen? {ts rest : List LocatedToken} (h : afterOpen? ts = some rest) :
    ∃ p, ts = ⟨.leftParen, p⟩ :: rest := by
  unfold afterOpen? at h
  split at h
  · cases h
    exact ⟨_, rfl⟩
  · cases h

theorem atEndOfTypes_of_head {ts ts' : List LocatedToken} (h : ts.head? = ts'.head?) :
    atEndOfTypes ts = atEndOfTypes ts' := by
  cases ts with
  | nil => rw [List.head?_eq_none_iff.1 h.symm]
  | cons t ts =>
    obtain ⟨ts', rfl⟩ := List.head?_eq_some_iff.1 h.symm
    rfl

theorem not_startsWithName_of_atEnd {ts : List LocatedToken} (h : atEndOfTypes ts = true) :
    ¬ StartsWithName (kinds ts) := by
  rintro ⟨n, ls, hn⟩
  obtain ⟨t, rest, rfl, ht, -⟩ := kinds_eq_cons hn
  simp [atEndOfTypes, ht] at h

theorem local_name (expected : Expectation) (ts : List LocatedToken) :
    Local Prod.mk .attributes .next (name expected) ts := by
  by_cases hname : StartsWithName (kinds ts)
  · obtain ⟨s, ls, hs⟩ := hname
    obtain ⟨⟨token, p⟩, rest, rfl, rfl, -⟩ := kinds_eq_cons hs
    exact .cons .attributes (.nothing s) fun _ => rfl
  · refine .blamed [] ts expected rfl fun ts' h => ⟨Sight.same_of_not_name h hname, ?_⟩
    cases ts with
    | nil =>
      obtain rfl := h.eq_nil
      rfl
    | cons t ts =>
      obtain ⟨tail, rfl⟩ := h.exists_eq_cons
      obtain ⟨token, p⟩ := t
      cases token with
      | name s => exact absurd ⟨s, _, rfl⟩ hname
      | _ => rfl

theorem local_expect (k : Token) (ts : List LocatedToken) :
    Local (fun (_ : Unit) ts => ts) .next .next (expect k) ts := by
  cases ts with
  | nil => exact .atEnd (.blame (.token k)) rfl
  | cons t ts =>
    by_cases hk : t.token = k
    · exact .cons .next (.nothing ()) fun _ => if_pos hk
    · exact .atToken (.blame (.token k)) fun _ => if_neg hk

theorem local_keyword (word : String) (ts : List LocatedToken) :
    Local (fun (_ : Unit) ts => ts) .next .next (keyword word) ts := by
  cases ts with
  | nil => exact .atEnd (.blame (.keyword word)) rfl
  | cons t ts =>
    by_cases hword : t.token = .name word
    · exact .cons .next (.nothing ()) fun _ => by simp [keyword, afterWord?, hword]
    · exact .atToken (.blame (.keyword word)) fun _ => by simp [keyword, afterWord?, hword]

theorem local_qualifier {β γ : Type} {put : γ → List LocatedToken → β}
    {f : Qualifier → List LocatedToken → Except Mismatch β}
    (hf : ∀ q ts, Local put .next .next (f q) ts) (ts : List LocatedToken) :
    Local put .next .next (fun ts => f (qualifier ts).1 (qualifier ts).2) ts := by
  cases ts with
  | nil => exact .atEnd (hf .required []) rfl
  | cons t ts =>
    obtain ⟨token, p⟩ := t
    cases token with
    | question => exact .cons .next (hf .optional ts) fun _ => rfl
    | star => exact .cons .next (hf .sequence ts) fun _ => rfl
    | _ => exact .atToken (hf .required _) fun _ => rfl

theorem local_field (ts : List LocatedToken) : Local Prod.mk .next .next field ts := by
  refine (local_name .fieldType ts).next.bind fun kind ts _ => ?_
  have hname : ∀ q ts, Local Prod.mk .next .next
      (fun ts => name .fieldName ts >>= fun p => pure (Field.mk kind p.1 q, p.2)) ts :=
    fun q ts => (local_name .fieldName ts).next.bind fun name ts _ =>
      .nothing (Field.mk kind name q)
  exact local_qualifier hname ts

/-- Where the list goes on or ends is told by the token after a field. -/
theorem fieldsThenClose_eq : fieldsThenClose = fun ts => field ts >>= fun p =>
    match p.2 with
    | ⟨.comma, _⟩ :: ts => fieldsThenClose ts >>= fun q => pure (p.1 :: q.1, q.2)
    | ⟨.rightParen, _⟩ :: ts => pure ([p.1], ts)
    | ts => .error ⟨.commaOrParen, ts⟩ := by
  funext ts
  rw [fieldsThenClose]
  split
  · rename_i e hf
    rw [hf]
    rfl
  · rename_i f p tail hf
    rw [hf]
    rfl
  · rename_i f p tail hf
    rw [hf]
    rfl
  · rename_i f tail hcomma hparen hf
    simp [hf, bind, Except.bind]

theorem local_fieldsThenClose (ts : List LocatedToken) :
    Local Prod.mk .next .next fieldsThenClose ts := by
  rw [fieldsThenClose_eq]
  -- By induction on the number of tokens, which a field makes smaller.
  refine (local_field ts).bind fun f rest hf => ?_
  have hlength := length_field hf
  cases rest with
  | nil => exact .atEnd (.blame .commaOrParen) rfl
  | cons t tail =>
    obtain ⟨token, p⟩ := t
    cases token with
    | comma =>
      have hmore : Local Prod.mk .next .next
          (fun ts => fieldsThenClose ts >>= fun q => pure (f :: q.1, q.2)) tail :=
        (local_fieldsThenClose tail).bind fun fs ts _ => .nothing (f :: fs)
      exact .cons .next hmore fun _ => rfl
    | rightParen => exact .cons .next (.nothing [f]) fun _ => rfl
    | _ => exact .atToken (.blame .commaOrParen) fun _ => rfl
termination_by ts.length
decreasing_by
  simp only [List.length_cons] at hlength
  omega

theorem local_fieldsAfterOpen (ts : List LocatedToken) :
    Local Prod.mk .next .next fieldsAfterOpen ts := by
  cases ts with
  | nil => exact .atEnd (local_fieldsThenClose []) rfl
  | cons t ts =>
    obtain ⟨token, p⟩ := t
    cases token with
    | rightParen => exact .cons .next (.nothing []) fun _ => rfl
    | _ => exact .atToken (local_fieldsThenClose _) fun _ => rfl

/-- A reader that goes on as one reader behind an opening parenthesis, and as another before any
other token. -/
theorem local_open {α β : Type} {put : α → List LocatedToken → β} {after : Sight}
    {f g : List LocatedToken → Except Mismatch β} (hf : ∀ ts, Local put .next after f ts)
    (hg : ∀ ts, Local put .next after g ts) (ts : List LocatedToken) :
    Local put .next after
      (fun ts => match afterOpen? ts with
        | some ts => f ts
        | none => g ts) ts := by
  cases ts with
  | nil => exact .atEnd (hg []) rfl
  | cons t ts =>
    obtain ⟨token, p⟩ := t
    cases token with
    | leftParen => exact .cons .next (hf ts) fun _ => rfl
    | _ => exact .atToken (hg _) fun _ => rfl

theorem local_attributes (ts : List LocatedToken) :
    Local Prod.mk .attributes .attributes attributes ts := by
  cases hat : (afterWord? "attributes" ts).bind afterOpen? with
  | none =>
    refine .congr (.nothing []) fun ts' h => ?_
    have hsome := h.2
    rw [atAttributes, atAttributes, hat, Option.isSome_none, eq_comm, Option.isSome_eq_false_iff,
      Option.isNone_iff_eq_none] at hsome
    rw [attributes, hsome]
  | some tail =>
    obtain ⟨mid, hword, hopen⟩ := Option.bind_eq_some_iff.1 hat
    obtain ⟨t, ht, rfl⟩ := eq_cons_of_afterWord? hword
    obtain ⟨p, rfl⟩ := eq_cons_of_afterOpen? hopen
    refine .cons .attributes (.cons .next (local_fieldsAfterOpen tail).ofNext fun ts' => ?_)
      fun _ => rfl
    simp [attributes, afterWord?, ht, afterOpen?]

theorem local_constructor (ts : List LocatedToken) :
    Local Prod.mk .next .next constructor ts := by
  refine (local_name .constructorName ts).next.bind fun name ts _ => ?_
  refine local_open (fun ts => ?_) (fun ts => ?_) ts
  · exact (local_fieldsAfterOpen ts).bind fun fs ts _ => .nothing (Constructor.mk name (some fs))
  · exact .nothing (Constructor.mk name none)

theorem constructors_eq : constructors = fun ts => constructor ts >>= fun p =>
    match p.2 with
    | ⟨.pipe, _⟩ :: ts => constructors ts >>= fun q => pure (p.1 :: q.1, q.2)
    | ts => pure ([p.1], ts) := by
  funext ts
  rw [constructors]
  split
  · rename_i e hc
    rw [hc]
    rfl
  · rename_i c p tail hc
    rw [hc]
    rfl
  · rename_i c tail hpipe hc
    simp [hc, bind, Except.bind, pure, Except.pure]

theorem local_constructors (ts : List LocatedToken) :
    Local Prod.mk .next .next constructors ts := by
  rw [constructors_eq]
  refine (local_constructor ts).bind fun c rest hc => ?_
  have hlength := length_constructor hc
  cases rest with
  | nil => exact .atEnd (.nothing [c]) rfl
  | cons t tail =>
    obtain ⟨token, p⟩ := t
    cases token with
    | pipe =>
      have hmore : Local Prod.mk .next .next
          (fun ts => constructors ts >>= fun q => pure (c :: q.1, q.2)) tail :=
        (local_constructors tail).bind fun cs ts _ => .nothing (c :: cs)
      exact .cons .next hmore fun _ => rfl
    | _ => exact .atToken (.nothing [c]) fun _ => rfl
termination_by ts.length
decreasing_by
  simp only [List.length_cons] at hlength
  omega

theorem local_typeBody (ts : List LocatedToken) :
    Local Prod.mk .next .attributes typeBody ts := by
  refine local_open (fun ts => ?_) (fun ts => ?_) ts
  · refine (local_fieldsAfterOpen ts).bind fun fs ts _ => ?_
    exact (local_attributes ts).next.bind fun as ts _ => .nothing (TypeBody.product ⟨fs, as⟩)
  · refine (local_constructors ts).bind fun cs ts _ => ?_
    exact (local_attributes ts).next.bind fun as ts _ => .nothing (TypeBody.sum ⟨cs, as⟩)

theorem local_typeDef (ts : List LocatedToken) :
    Local Prod.mk .attributes .attributes typeDef ts := by
  refine (local_name .typeName ts).bind fun name ts _ => ?_
  refine (local_expect .equals ts).bind fun _ ts _ => ?_
  exact (local_typeBody ts).bind fun body ts _ => .nothing (TypeDef.mk name body)

theorem typeDefs_eq : typeDefs = fun ts => if atEndOfTypes ts then .ok ([], ts) else do
    let (t, ts) ← typeDef ts
    let (types, ts) ← typeDefs ts
    return (t :: types, ts) := by
  funext ts
  rw [typeDefs]
  split
  · rfl
  · split
    · rename_i e ht
      rw [ht]
      rfl
    · rename_i t rest ht
      rw [ht]
      rfl

/-- A type looks for attributes behind it. Neither the next type nor the token that ends the types
can have that look. -/
theorem local_typeDefs (ts : List LocatedToken) :
    Local Prod.mk .attributes .next typeDefs ts := by
  rw [typeDefs_eq]
  cases hend : atEndOfTypes ts with
  | true =>
    refine .taken [] ts [] rfl fun ts' h => ⟨Sight.same_of_not_name h ?_, ?_⟩
    · exact not_startsWithName_of_atEnd hend
    · rw [List.nil_append, if_pos (atEndOfTypes_of_head h ▸ hend)]
  | false =>
    have hmore : Local Prod.mk .attributes .next (fun ts => do
        let (t, ts) ← typeDef ts
        let (types, ts) ← typeDefs ts
        return (t :: types, ts)) ts := by
      refine (local_typeDef ts).bind fun t rest ht => ?_
      have hlength := length_typeDef ht
      exact (local_typeDefs rest).bind fun types ts _ => .nothing (t :: types)
    refine .congr hmore fun ts' h => ?_
    rw [if_neg]
    simp [← atEndOfTypes_of_head h.head, hend]
termination_by ts.length
decreasing_by omega

theorem local_versionString (ts : List LocatedToken) :
    Local (fun (_ : Unit) ts => ts) .next .next versionString ts := by
  cases ts with
  | nil => exact .atEnd (.nothing ()) rfl
  | cons t ts =>
    by_cases hword : t.token = .name "version"
    · have hstring : Local (fun (_ : Unit) ts => ts) .next .next
          (fun ts => versionString (t :: ts)) ts := by
        cases ts with
        | nil => exact .atEnd (.blame .versionString) (by simp [versionString, afterWord?, hword])
        | cons u ts =>
          obtain ⟨token, p⟩ := u
          cases token with
          | string version =>
            exact .cons .next (.nothing ()) fun _ => by simp [versionString, afterWord?, hword]
          | _ =>
            refine .atToken (.blame .versionString) fun _ => ?_
            simp [versionString, afterWord?, hword]
      exact .cons .next hstring fun _ => rfl
    · exact .atToken (.nothing ()) fun _ => by simp [versionString, afterWord?, hword]

theorem local_nothingMore (ts : List LocatedToken) :
    Local (fun (_ : Unit) (_ : List LocatedToken) => ()) .next .next nothingMore ts := by
  cases ts with
  | nil => exact .atEnd (.nothing ()) rfl
  | cons t ts => exact .atToken (.blame .endOfInput) fun _ => rfl

theorem local_module (ts : List LocatedToken) :
    Local (fun m (_ : List LocatedToken) => m) .next .next module ts := by
  refine Local.bind (local_keyword "module" ts) fun _ ts _ => ?_
  refine (local_name .moduleName ts).next.bind fun name ts _ => ?_
  refine (local_versionString ts).bind fun _ ts _ => ?_
  refine (local_expect .leftBrace ts).bind fun _ ts _ => ?_
  refine (local_typeDefs ts).next.bind fun types ts _ => ?_
  refine (local_expect .rightBrace ts).bind fun _ ts _ => ?_
  exact (local_nothingMore ts).bind fun _ ts _ => .nothing (Schema.mk name types)

/-- A token that the reader of modules blames is blamed whatever comes after it. -/
theorem module_blames {ts : List LocatedToken} {e : Mismatch} (h : module ts = .error e) :
    ∃ front, ts = front ++ e.rest ∧
      ∀ rest, e.rest.head? = rest.head? → module (front ++ rest) = .error ⟨e.expected, rest⟩ := by
  cases local_module ts with
  | taken front rest m split keeps =>
    rw [split, keeps.eq] at h
    cases h
  | blamed front rest expected split keeps =>
    rw [split, keeps.eq] at h
    cases h
    exact ⟨front, split, fun rest' hhead => (keeps rest' hhead).2⟩

end Readers

end Reading

end SchemaLineage
