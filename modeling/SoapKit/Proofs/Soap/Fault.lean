import SoapKit.Proofs.Xml.Path.Bindings
import SoapKit.Soap.Fault

/-!
# Looking for faults

The expressions that faults are looked for with can be read under the binding of the envelope's
namespace alone. Since this binding goes over those of a document, looking for a fault never fails,
whatever qualifiers a document has registered (`Fault.exists_detect`).
-/

namespace SoapKit.Soap

open Xml (Document Node)
open Xml.Path (QueryError compile)

/-- The expressions for a fault and what is in it. -/
def faultPaths : List String :=
  [faultPath, codePath, reasonPath]

theorem exists_compile {path : String} (hpath : path ∈ faultPaths) (version : Version) :
    ∃ expression, compile (envelopeBindings version) path = .ok expression := by
  have hall : ([Version.soap11, .soap12].all fun version => faultPaths.all fun path =>
      (compile (envelopeBindings version) path).toBool) = true := by decide +kernel
  have hversion : version ∈ [Version.soap11, .soap12] := by cases version <;> simp
  have hread := List.all_eq_true.1 (List.all_eq_true.1 hall version hversion) path hpath
  cases hcompiled : compile (envelopeBindings version) path with
  | error e =>
    rw [hcompiled] at hread
    cases hread
  | ok expression => exact ⟨expression, rfl⟩

theorem exists_query {path : String} (hpath : path ∈ faultPaths) (version : Version) (d : Document)
    (n : Node) : ∃ found, d.query n path (envelopeBindings version) = .ok found := by
  obtain ⟨expression, hexpression⟩ := exists_compile hpath version
  have hextends := Xml.Path.Bindings.extends_append d.registered (envelopeBindings version)
  refine ⟨expression.select d n, ?_⟩
  rw [Document.query, Xml.Path.compile_extends hextends path expression hexpression]
  rfl

theorem exists_firstText {path : String} (hpath : path ∈ faultPaths) (version : Version)
    (d : Document) (n : Node) : ∃ text, firstText d n version path = .ok text := by
  obtain ⟨found, hfound⟩ := exists_query hpath version d n
  rw [firstText, hfound]
  exact ⟨_, rfl⟩

namespace Fault

theorem exists_ofNode (d : Document) (n : Node) (version : Version) :
    ∃ fault, ofNode d n version = .ok fault := by
  have hcodePath : codePath ∈ faultPaths := by simp [faultPaths]
  have hreasonPath : reasonPath ∈ faultPaths := by simp [faultPaths]
  obtain ⟨code, hcode⟩ := exists_firstText hcodePath version d n
  obtain ⟨reason, hreason⟩ := exists_firstText hreasonPath version d n
  rw [ofNode, hcode, hreason]
  exact ⟨_, rfl⟩

/-- Looking for a fault never fails. -/
theorem exists_detect (d : Document) (version : Version) :
    ∃ found, detect d version = .ok found := by
  obtain ⟨nodes, hnodes⟩ :=
    exists_query (List.mem_cons_self : faultPath ∈ faultPaths) version d Document.root
  rw [detect, hnodes]
  cases nodes with
  | nil => exact ⟨none, rfl⟩
  | cons n rest =>
    obtain ⟨fault, hfault⟩ := exists_ofNode d n version
    refine ⟨some fault, ?_⟩
    show some <$> ofNode d n version = _
    rw [hfault]
    rfl

end Fault

end SoapKit.Soap
