import Mathlib.Data.List.Forall2
import SchemaLineage.Command.Session
import SchemaLineage.Except

/-!
What commands read. Steps that only read leave the session as it is and find one value, which is
told by a relation to the files; such steps can be put one after the other.
-/
namespace SchemaLineage

def HasText (files : String → Except FileError ByteArray) (path text : String) : Prop :=
  ∃ bytes, files path = .ok bytes ∧ String.fromUTF8? bytes = some text

inductive HasSettings (files : String → Except FileError ByteArray) :
    Option String → Settings → Prop
  | default : HasSettings files none {}
  | file {path text : String} {settings : Settings} : HasText files path text →
    Settings.ofYaml text = .ok settings → HasSettings files (some path) settings

structure HasSnapshot (files : String → Except FileError ByteArray) (path : String)
    (loaded : Command.LoadedSnapshot) : Prop where
  path_eq : loaded.path = path
  source : HasText files path loaded.source
  snapshot : Snapshot.ofText (Path.displayName path) loaded.source = .ok loaded.snapshot

namespace Steps

variable {σ α β : Type} {x : Steps (StateM (Session σ)) α}
  {f : α → Steps (StateM (Session σ)) β}

theorem run_bind_of_ok {a : α} {s s' : Session σ} (h : x.run.run s = (.ok a, s')) :
    (x >>= f).run.run s = (f a).run.run s' := by
  rw [ExceptT.run_bind, StateT.run_bind, h]
  rfl

theorem run_bind_of_error {e : CommandError} {s s' : Session σ}
    (h : x.run.run s = (.error e, s')) : (x >>= f).run.run s = (.error e, s') := by
  rw [ExceptT.run_bind, StateT.run_bind, h]
  rfl

theorem run_request (refused : FileError → CommandError)
    {answer : StateM (Session σ) (Except FileError α)} {result : Except FileError α}
    {s s' : Session σ} (h : answer.run s = (result, s')) :
    (request answer refused).run.run s = (result.mapError refused, s') := by
  rw [request, ExceptT.run_mk, StateT.run_map, h]
  rfl

/-- Steps that leave a session as it is, and answer the one value that stands in a relation to its
files, or fail if there is none. -/
def Finds (x : Steps (StateM (Session σ)) α) (R : σ → α → Prop) : Prop :=
  ∀ s : Session σ, ∃ found : Except CommandError α,
    x.run.run s = (found, s) ∧ ∀ a, R s.files a ↔ found = .ok a

theorem finds_ofExcept (x : Except CommandError α) :
    Finds (ofExcept x : Steps (StateM (Session σ)) α) fun _ a => x = .ok a :=
  fun _ => ⟨x, rfl, fun _ => Iff.rfl⟩

theorem Finds.congr {R S : σ → α → Prop} (hx : Finds x R)
    (h : ∀ files a, R files a ↔ S files a) : Finds x S := by
  intro s
  obtain ⟨found, hrun, hfound⟩ := hx s
  exact ⟨found, hrun, fun a => (h s.files a).symm.trans (hfound a)⟩

theorem Finds.bind {R : σ → α → Prop} {S : α → σ → β → Prop} (hx : Finds x R)
    (hf : ∀ a, Finds (f a) (S a)) :
    Finds (x >>= f) fun files b => ∃ a, R files a ∧ S a files b := by
  intro s
  obtain ⟨found, hrun, hfound⟩ := hx s
  cases found with
  | error e =>
    have hnone : ∀ a, ¬ R s.files a := by simpa using hfound
    refine ⟨.error e, run_bind_of_error hrun, fun b => ?_⟩
    simp [hnone]
  | ok a =>
    obtain ⟨result, hresult, hiff⟩ := hf a s
    refine ⟨result, (run_bind_of_ok hrun).trans hresult, fun b => ?_⟩
    simp [hfound, hiff b]

/-- Steps on each element in turn. -/
theorem Finds.mapM {R : α → σ → β → Prop} (hf : ∀ a, Finds (f a) (R a)) (as : List α) :
    Finds (as.mapM f) fun files bs => List.Forall₂ (fun a b => R a files b) as bs := by
  induction as with
  | nil =>
    refine (finds_ofExcept (.ok [])).congr fun _ bs => ?_
    simp [eq_comm]
  | cons a as ih =>
    rw [List.mapM_cons]
    refine ((hf a).bind fun b => ih.bind fun bs => finds_ofExcept (.ok (b :: bs))).congr ?_
    intro files bs
    simp [List.forall₂_cons_left_iff, eq_comm]

theorem finds_read [FileSystem σ] (path : String) (refused : FileError → CommandError) :
    Finds (request (Host.read path) refused : Steps (StateM (Session σ)) ByteArray)
      fun files bytes => FileSystem.read files path = .ok bytes := by
  intro s
  exact ⟨(FileSystem.read s.files path).mapError refused, rfl,
    fun bytes => Except.mapError_eq_ok.symm⟩

end Steps

namespace Command

open Steps

theorem textOf_eq_ok {path text : String} {bytes : ByteArray} :
    textOf path bytes = .ok text ↔ String.fromUTF8? bytes = some text := by
  unfold textOf
  split
  · rename_i found hfound
    simp [hfound]
  · rename_i hnone
    simp [hnone]

theorem settingsOf_eq_ok {path : String} {bytes : ByteArray} {settings : Settings} :
    settingsOf path bytes = .ok settings ↔
      ∃ text, String.fromUTF8? bytes = some text ∧ Settings.ofYaml text = .ok settings := by
  unfold settingsOf
  split
  · rename_i found hfound
    simp [hfound, Except.mapError_eq_ok]
  · rename_i hnone
    simp [hnone]

theorem validated_eq_ok {path : String} {schema : Schema} {u : Unit} :
    validated path schema = .ok u ↔ schema.defects = [] := by
  unfold validated
  split
  · rename_i hempty
    simpa using hempty
  · rename_i hdefects
    simpa using hdefects

theorem snapshotOf_eq_ok {path source : String} {loaded : LoadedSnapshot} :
    snapshotOf path source = .ok loaded ↔ loaded.path = path ∧ loaded.source = source ∧
      Snapshot.ofText (Path.displayName path) source = .ok loaded.snapshot := by
  unfold snapshotOf
  split
  · rename_i found hfound
    rw [hfound, Except.ok.injEq, Except.ok.injEq]
    constructor
    · intro h
      subst h
      exact ⟨rfl, rfl, rfl⟩
    · rintro ⟨rfl, rfl, rfl⟩
      rfl
  · rename_i e he
    simp [he]

variable {σ : Type} [FileSystem σ]

theorem finds_readText (path : String) :
    Finds (readText path : Steps (StateM (Session σ)) String) fun files text =>
      HasText (FileSystem.read files) path text := by
  refine ((finds_read path _).bind fun bytes => finds_ofExcept (textOf path bytes)).congr ?_
  intro files text
  simp only [textOf_eq_ok, HasText]

theorem finds_readSettings (config? : Option String) :
    Finds (readSettings config? : Steps (StateM (Session σ)) Settings) fun files settings =>
      HasSettings (FileSystem.read files) config? settings := by
  cases config? with
  | none =>
    refine (finds_ofExcept (.ok ({} : Settings))).congr fun files settings => ⟨?_, ?_⟩
    · intro h
      cases h
      exact .default
    · intro h
      cases h
      rfl
  | some path =>
    refine ((finds_read path _).bind fun bytes => finds_ofExcept (settingsOf path bytes)).congr ?_
    intro files settings
    constructor
    · rintro ⟨bytes, hread, hsettings⟩
      obtain ⟨text, htext, hyaml⟩ := settingsOf_eq_ok.1 hsettings
      exact .file ⟨bytes, hread, htext⟩ hyaml
    · intro h
      cases h with
      | file htext hyaml =>
        obtain ⟨bytes, hread, htext⟩ := htext
        exact ⟨bytes, hread, settingsOf_eq_ok.2 ⟨_, htext, hyaml⟩⟩

theorem finds_readSnapshot (path : String) :
    Finds (readSnapshot path : Steps (StateM (Session σ)) LoadedSnapshot) fun files loaded =>
      HasSnapshot (FileSystem.read files) path loaded := by
  refine ((finds_readText path).bind fun source =>
    finds_ofExcept (snapshotOf path source)).congr ?_
  intro files loaded
  constructor
  · rintro ⟨source, hsource, hloaded⟩
    obtain ⟨hpath, rfl, hsnapshot⟩ := snapshotOf_eq_ok.1 hloaded
    exact ⟨hpath, hsource, hsnapshot⟩
  · intro h
    exact ⟨loaded.source, h.source, snapshotOf_eq_ok.2 ⟨h.path_eq, rfl, h.snapshot⟩⟩

end Command

end SchemaLineage
