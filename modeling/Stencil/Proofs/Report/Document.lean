import Stencil.Proofs.Json.Value
import Stencil.Report

/-!
# Reading reports

A reader of JSON reports that takes the fields by name.  From a report it gets the
counts and the diagnostics the report was made of, so no two lists of diagnostics have
the same report.
-/

namespace Stencil

namespace Json

def field? (name : String) : Json → Option Json
  | object fields => fields.lookup name
  | _ => none

def text? : Json → Option String
  | string text => some text
  | _ => none

def number? : Json → Option Nat
  | number n => some n
  | _ => none

def bool? : Json → Option Bool
  | bool b => some b
  | _ => none

def elements? : Json → Option (List Json)
  | array elements => some elements
  | _ => none

def textFields? : Json → Option (List (String × String))
  | object fields => fields.mapM fun (name, value) => value.text?.map (name, ·)
  | _ => none

end Json

/-! ## Diagnostics -/

def Severity.ofName? (name : String) : Option Severity :=
  [convention, warning, error, fatal].find? (·.name == name)

theorem Severity.ofName?_name (s : Severity) : ofName? s.name = some s := by
  cases s <;> rfl

namespace Diagnostic

def replacementOf? (v : Json) : Option (Option String) :=
  match v.field? "replacement" with
  | none => some none
  | some value => value.text?.map some

def ofJson? (v : Json) : Option Diagnostic := do
  let path ← (v.field? "path").bind Json.text?
  let line ← (v.field? "line").bind Json.number?
  let column ← (v.field? "column").bind Json.number?
  let severity ← ((v.field? "severity").bind Json.text?).bind Severity.ofName?
  let rule ← (v.field? "rule").bind Json.text?
  let message ← (v.field? "message").bind Json.text?
  let found ← (v.field? "matched").bind Json.text?
  let captures ← (v.field? "captures").bind Json.textFields?
  let replacement ← replacementOf? v
  let corrected ← (v.field? "corrected").bind Json.bool?
  return ⟨path, ⟨line, column⟩, severity, rule, message, found, ⟨captures⟩, replacement, corrected⟩

end Diagnostic

/-! ## Reports -/

structure Summary where
  filesInspected : Nat
  matchCount : Nat
  correctedCount : Nat
  diagnostics : List Diagnostic
  deriving DecidableEq, Repr

def Summary.ofJson? (v : Json) : Option Summary := do
  let metadata ← v.field? "metadata"
  let filesInspected ← (metadata.field? "files_inspected").bind Json.number?
  let matchCount ← (metadata.field? "match_count").bind Json.number?
  let correctedCount ← (metadata.field? "corrected_count").bind Json.number?
  let found ← (v.field? "matches").bind Json.elements?
  let diagnostics ← found.mapM Diagnostic.ofJson?
  return ⟨filesInspected, matchCount, correctedCount, diagnostics⟩

def Summary.of (ds : List Diagnostic) (fileCount : Nat) : Summary :=
  ⟨fileCount, ds.length, ds.countP (·.corrected), ds⟩

namespace Report

theorem mapM_map_of_eq_some {α β : Type} {f : α → β} {g : β → Option α}
    (h : ∀ a, g (f a) = some a) (l : List α) : (l.map f).mapM g = some l := by
  induction l with
  | nil => rfl
  | cons a l ih => simp [h, ih]

theorem textFields?_captures (m : NameMap String) : (captures m).textFields? = some m.entries :=
  mapM_map_of_eq_some (f := fun entry : String × String => (entry.1, Json.string entry.2))
    (g := fun field : String × Json => field.2.text?.map (field.1, ·)) (fun _ => rfl) m.entries

theorem ofJson?_entry (d : Diagnostic) : Diagnostic.ofJson? (entry d) = some d := by
  obtain ⟨path, ⟨line, column⟩, severity, rule, message, found, captures, replacement,
    corrected⟩ := d
  have hcaptures := textFields?_captures captures
  have hseverity := Severity.ofName?_name severity
  cases replacement with
  | none =>
      simp [Diagnostic.ofJson?, Diagnostic.replacementOf?, entry, Json.field?, List.lookup_cons,
        Json.text?, Json.number?, Json.bool?, hcaptures, hseverity]
  | some value =>
      simp [Diagnostic.ofJson?, Diagnostic.replacementOf?, entry, Json.field?, List.lookup_cons,
        Json.text?, Json.number?, Json.bool?, hcaptures, hseverity]

theorem ofJson?_document (ds : List Diagnostic) (fileCount : Nat) :
    Summary.ofJson? (document ds fileCount) = some (.of ds fileCount) := by
  have hentries := mapM_map_of_eq_some ofJson?_entry ds
  simp [Summary.ofJson?, Summary.of, document, Json.field?, List.lookup_cons, Json.number?,
    Json.elements?, hentries, correctedCount, List.countP_eq_length_filter]

theorem read?_json (ds : List Diagnostic) (fileCount : Nat) :
    Json.read? (json ds fileCount) = some (document ds fileCount) := by
  rw [Json.read?_eq_some_iff, Json.WrittenAs, json, Json.pretty, String.toList_append]
  have hblank : Json.Writes [] "\n".toList := .blank rfl .nil
  simpa using Json.prints_prettyAt (document ds fileCount) 0 hblank
    (Json.endsNumber_cons (by decide) [])

theorem json_injective {ds ds' : List Diagnostic} {fileCount fileCount' : Nat}
    (h : json ds fileCount = json ds' fileCount') : ds = ds' ∧ fileCount = fileCount' := by
  have hread := read?_json ds fileCount
  rw [h, read?_json] at hread
  have hsummary := ofJson?_document ds' fileCount'
  rw [Option.some.inj hread, ofJson?_document] at hsummary
  simp only [Summary.of, Option.some.injEq, Summary.mk.injEq] at hsummary
  exact ⟨hsummary.2.2.2, hsummary.1⟩

/-- A report is the text of one value and a line feed, and all it was made of is read back
from it. -/
theorem json_recovers (ds : List Diagnostic) (fileCount : Nat) :
    ∃ body doc, json ds fileCount = body ++ "\n" ∧ (∀ v, v.WrittenAs body ↔ v = doc) ∧
      Json.read? (json ds fileCount) = some doc ∧
      Summary.ofJson? doc =
        some ⟨fileCount, ds.length, ds.countP (·.corrected), ds⟩ ∧
      ∀ ds' fileCount', json ds' fileCount' = json ds fileCount ↔
        ds' = ds ∧ fileCount' = fileCount := by
  have hwritten := Json.writtenAs_pretty (document ds fileCount)
  refine ⟨_, document ds fileCount, rfl, fun v => ⟨fun h => h.unique hwritten, ?_⟩,
    read?_json ds fileCount, ofJson?_document ds fileCount, fun ds' fileCount' =>
      ⟨json_injective, ?_⟩⟩
  · rintro rfl
    exact hwritten
  · rintro ⟨rfl, rfl⟩
    rfl

end Report

end Stencil
