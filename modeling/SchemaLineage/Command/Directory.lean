import SchemaLineage.Command.Session

/-!
A directory tree as a file system. The tree holds files and directories under the words of their
paths; its root is the directory that commands run in.
-/
namespace SchemaLineage

inductive Entry where
  | file (bytes : ByteArray)
  | directory

namespace Entry

def bytes? : Entry → Option ByteArray
  | file bytes => some bytes
  | directory => none

end Entry

/-- A directory tree: the entries below its root, each under the words of its path. -/
structure Directory where
  entries : List (List (List Char) × Entry)

namespace Directory

def entryAt (d : Directory) (place : List (List Char)) : Option Entry :=
  if place = [] then some .directory else d.entries.lookup place

def put (d : Directory) (place : List (List Char)) (e : Entry) : Directory :=
  ⟨(place, e) :: d.entries.filter (·.1 ≠ place)⟩

def stepFrom (place : List (List Char)) (step : List Char) : List (List Char) :=
  if step = ['.'] then place else if step = ['.', '.'] then place.dropLast else place ++ [step]

/-- Where the steps of a path lead from a directory. All but the last one must lead to
directories. -/
def walk (d : Directory) (place : List (List Char)) : List (List Char) →
    Except FileError (List (List Char))
  | [] => .ok place
  | step :: rest =>
    match d.entryAt place with
    | none => .error .notFound
    | some (.file _) => .error .notADirectory
    | some .directory => walk d (stepFrom place step) rest

def read (d : Directory) (path : String) : Except FileError ByteArray := do
  let place ← d.walk [] (Path.steps path)
  match d.entryAt place with
  | none => throw .notFound
  | some .directory => throw .isADirectory
  | some (.file bytes) => if Path.endsInSlash path then throw .notADirectory else return bytes

/-- Makes the directories along the steps of a path. They are made from the first one that is
missing on, and those made before a file is met stay; a file met on the way is told from one at the
end only if none was made before it. -/
def makeSteps (made : Bool) (d : Directory) (place : List (List Char)) : List (List Char) →
    Except FileError Unit × Directory
  | [] => (.ok (), d)
  | step :: rest =>
    let next := stepFrom place step
    match d.entryAt next with
    | none => makeSteps true (d.put next .directory) next rest
    | some .directory => makeSteps made d next rest
    | some (.file _) =>
      (.error (if made || rest.isEmpty then .alreadyExists else .notADirectory), d)

def makeDirectories (d : Directory) (path : String) : Except FileError Unit × Directory :=
  makeSteps false d [] (Path.parts path)

def writePlace (d : Directory) (path : String) : Except FileError (List (List Char)) := do
  let place ← d.walk [] (Path.steps path)
  match d.entryAt place with
  | some .directory => throw .isADirectory
  | _ => if Path.endsInSlash path then throw .isADirectory else return place

def write (d : Directory) (path text : String) : Except FileError Unit × Directory :=
  match d.writePlace path with
  | .ok place => (.ok (), d.put place (.file text.toUTF8))
  | .error e => (.error e, d)

def file? (d : Directory) (place : List (List Char)) : Option ByteArray :=
  (d.entryAt place).bind Entry.bytes?

/-- The tree of given files and directories; the directories above them are added. -/
def ofEntries (entries : List (String × Entry)) : Directory :=
  entries.foldl (fun d (path, e) =>
    let parts := Path.parts path
    (makeSteps false d [] parts.dropLast).2.put parts e) ⟨[]⟩

theorem lookup_filter_ne {α β : Type} [BEq α] [LawfulBEq α] [DecidableEq α]
    (entries : List (α × β)) {a b : α} (h : a ≠ b) :
    (entries.filter (·.1 ≠ b)).lookup a = entries.lookup a := by
  induction entries with
  | nil => rfl
  | cons entry rest ih =>
    obtain ⟨key, value⟩ := entry
    by_cases hb : key = b
    · have ha : (a == b) = false := by simpa using h
      rw [List.filter_cons_of_neg (by simpa using hb), List.lookup_cons, hb, ha]
      exact ih
    · rw [List.filter_cons_of_pos (by simpa using hb), List.lookup_cons, List.lookup_cons, ih]

theorem entryAt_put_self (d : Directory) {place : List (List Char)} (e : Entry)
    (h : place ≠ []) : (d.put place e).entryAt place = some e := by
  simp [entryAt, put, h]

theorem entryAt_put_of_ne (d : Directory) {place other : List (List Char)} (e : Entry)
    (h : other ≠ place) : (d.put place e).entryAt other = d.entryAt other := by
  have hkey : (other == place) = false := by simpa using h
  simp only [entryAt, put, List.lookup_cons, hkey, lookup_filter_ne d.entries h]

theorem ne_nil_of_entryAt {d : Directory} {place : List (List Char)}
    (h : d.entryAt place ≠ some .directory) : place ≠ [] := by
  rintro rfl
  exact h rfl

/-- A step is taken from directories only, so it is not led elsewhere by what is put at a place
without one. -/
theorem walk_put {d : Directory} {target : List (List Char)} (e : Entry)
    (h : d.entryAt target ≠ some .directory) (steps place stop : List (List Char))
    (hwalk : d.walk place steps = .ok stop) :
    (d.put target e).walk place steps = .ok stop := by
  induction steps generalizing place with
  | nil => exact hwalk
  | cons step rest ih =>
    simp only [walk] at hwalk ⊢
    split at hwalk
    · cases hwalk
    · cases hwalk
    · rename_i hplace
      have hne : place ≠ target := by
        rintro rfl
        exact h hplace
      rw [entryAt_put_of_ne d e hne, hplace]
      exact ih (stepFrom place step) hwalk

theorem file?_put_directory {d : Directory} {place : List (List Char)}
    (h : d.entryAt place = none) (other : List (List Char)) :
    (d.put place .directory).file? other = d.file? other := by
  by_cases hother : other = place
  · have hne : place ≠ [] := ne_nil_of_entryAt (d := d) (by simp [h])
    subst hother
    simp [file?, entryAt_put_self d .directory hne, h, Entry.bytes?]
  · simp only [file?, entryAt_put_of_ne d .directory hother]

theorem file?_makeSteps (made : Bool) (d : Directory) (place steps other : List (List Char)) :
    (makeSteps made d place steps).2.file? other = d.file? other := by
  induction steps generalizing made d place with
  | nil => rfl
  | cons step rest ih =>
    simp only [makeSteps]
    split
    · rename_i hnone
      rw [ih, file?_put_directory hnone]
    · exact ih made d _
    · rfl

/-- What is known of a place that a file can be written at. -/
theorem writePlace_eq_ok {d : Directory} {path : String} {place : List (List Char)}
    (h : d.writePlace path = .ok place) :
    d.walk [] (Path.steps path) = .ok place ∧ d.entryAt place ≠ some .directory ∧
      Path.endsInSlash path = false := by
  cases hwalk : d.walk [] (Path.steps path) with
  | error e => simp [writePlace, hwalk, bind, Except.bind] at h
  | ok stop =>
    simp only [writePlace, hwalk, bind, Except.bind] at h
    split at h
    · cases h
    · rename_i hentry
      split at h
      · cases h
      · rename_i hslash
        have hstop : stop = place := by simpa [pure, Except.pure] using h
        subst hstop
        exact ⟨rfl, hentry, by simpa using hslash⟩

theorem write_eq_ok {d : Directory} {path text : String} (h : (d.write path text).1 = .ok ()) :
    ∃ place, d.writePlace path = .ok place ∧
      (d.write path text).2 = d.put place (.file text.toUTF8) := by
  cases hplace : d.writePlace path with
  | error e => simp [write, hplace] at h
  | ok place => exact ⟨place, rfl, by simp [write, hplace]⟩

theorem file?_write_of_error {d : Directory} {path text : String} {e : FileError}
    (h : (d.write path text).1 = .error e) (other : List (List Char)) :
    (d.write path text).2.file? other = d.file? other := by
  cases hplace : d.writePlace path with
  | error e => simp [write, hplace]
  | ok place => simp [write, hplace] at h

theorem file?_write_of_ok {d : Directory} {path text : String}
    (h : (d.write path text).1 = .ok ()) :
    ∃ place, (d.write path text).2.file? place = some text.toUTF8 ∧
      ∀ other, other ≠ place → (d.write path text).2.file? other = d.file? other := by
  obtain ⟨place, hplace, heq⟩ := write_eq_ok h
  have hne := ne_nil_of_entryAt (writePlace_eq_ok hplace).2.1
  refine ⟨place, ?_, fun other hother => ?_⟩
  · simp [heq, file?, entryAt_put_self d _ hne, Entry.bytes?]
  · simp only [heq, file?, entryAt_put_of_ne d _ hother]

theorem read_write_of_ok {d : Directory} {path text : String}
    (h : (d.write path text).1 = .ok ()) :
    (d.write path text).2.read path = .ok text.toUTF8 := by
  obtain ⟨place, hplace, heq⟩ := write_eq_ok h
  obtain ⟨hwalk, hentry, hslash⟩ := writePlace_eq_ok hplace
  have hput := entryAt_put_self d (.file text.toUTF8) (ne_nil_of_entryAt hentry)
  rw [heq, read, walk_put _ hentry _ _ _ hwalk]
  simp only [bind, Except.bind, hput, hslash, Bool.false_eq_true, if_false, pure, Except.pure]

instance : FileSystem Directory where
  Place := List (List Char)
  file? := file?
  read := read
  makeDirectories := makeDirectories
  write := write
  file?_makeDirectories d path place := file?_makeSteps false d [] (Path.parts path) place
  file?_write_of_error _ _ _ _ place h := file?_write_of_error h place
  file?_write_of_ok _ _ _ h := file?_write_of_ok h
  read_write_of_ok _ _ _ h := read_write_of_ok h

def runArguments (d : Directory) (arguments : List String) : Outcome × Directory :=
  Invocation.runOn d arguments

end Directory

end SchemaLineage
