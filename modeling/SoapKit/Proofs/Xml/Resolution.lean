import SoapKit.Proofs.Xml.Building

/-!
# Three ways to resolve a qualifier

What a qualifier stands for is found in three ways: in the open elements while a document is built,
by going up from a node afterwards, and in the list of the declarations that are in effect at it.

**Theorem (`build_resolversAgree`).** In a document that is built from raw tags without repeated
keys, and in all copies of it, the three ways agree at every node.

The first way looks through the declarations as they were written and the others through the sorted
ones; in a tag that declares every qualifier once this makes no difference (`Tag.Reads.sorted`). The
declarations of the open elements are those that reach the new one, and the invariant of building
keeps that each tag stands for itself among them (`Document.build_tidy` for `Tag.Reads`). A copy has
all declarations that were in effect on its element and nothing around it, which is the same to a
lookup (`portable_reads`).
-/

namespace SoapKit.Xml

open SoapKit.Xml.Tree
open Declaration (lookup)

/-- A step that opens elements from raw attributes only, none of them twice. -/
def Assembly.Step.IsRaw : Assembly.Step → Prop
  | .openRaw _ attributes => (attributes.map (·.1)).Nodup
  | .openTag _ => False
  | .close _ => True
  | .addText _ => True

instance : DecidablePred Assembly.Step.IsRaw
  | .openRaw _ attributes => inferInstanceAs (Decidable (attributes.map (·.1)).Nodup)
  | .openTag _ => inferInstanceAs (Decidable False)
  | .close _ => inferInstanceAs (Decidable True)
  | .addText _ => inferInstanceAs (Decidable True)

theorem Assembly.Step.IsRaw.opens {s : Assembly.Step} (h : s.IsRaw) : s.Opens Tag.Reads := by
  cases s with
  | openRaw written attributes => exact fun _ tag htag => (htag.reads h).sorted
  | openTag tag => exact h.elim
  | close written => trivial
  | addText data => trivial

/-- Where every qualifier is declared once, a lookup finds its declaration, if it has a URI. -/
theorem lookup_eq_some_iff {scope : List Declaration}
    (hnodup : (scope.map (·.qualifier)).Nodup) {qualifier : Option String} {uri : String}
    (hxml : qualifier ≠ some "xml") :
    lookup scope qualifier = some uri ↔ uri ≠ "" ∧ ⟨qualifier, uri⟩ ∈ scope := by
  rw [lookup, if_neg hxml]
  constructor
  · intro h
    split at h
    · rename_i declaration hfind
      obtain ⟨hmem, rfl⟩ := (find?_eq_some_iff_of_nodup hnodup).1 hfind
      split at h
      · cases h
      · rename_i huri
        cases h
        exact ⟨by simpa using huri, hmem⟩
    · cases h
  · rintro ⟨huri, hmem⟩
    rw [(find?_eq_some_iff_of_nodup hnodup).2 ⟨hmem, rfl⟩]
    simp [huri]

/-- What a tag stands for goes over to copies. -/
theorem portable_reads : Tag.Portable Tag.Reads where
  congr hscope h := h.redeclare (lookup_append_congr hscope) h.qualifiers
  lifted h := by
    refine h.redeclare (fun qualifier => ?_) ?_
    · rw [List.append_nil]
      exact Document.lookup_reverse_firstOfEach qualifier
    · rw [List.map_reverse]
      exact List.nodup_reverse.2 Document.nodup_firstOfEach.1

namespace Document

/-- The namespaces that elements and attributes have, those that are looked up at a node and those
that the declarations in effect there give agree. A URI that takes a binding back counts as none. -/
structure ResolversAgree (d : Document) : Prop where
  elements : ∀ n tag, d.tag n = some tag → tag.uri = d.lookupNamespace n tag.name.qualifier
  attributes : ∀ n attr, d.attribute? n = some attr →
    match attr.name.qualifier with
    | none => attr.uri = none
    | some qualifier =>
      attr.uri.isSome ∧ attr.uri = d.lookupNamespace (Node.ofPlace n.place) (some qualifier)
  inScope : ∀ n qualifier, qualifier ≠ some "xml" → ∀ uri,
    d.lookupNamespace n qualifier = some uri ↔
      uri ≠ "" ∧ ⟨qualifier, uri⟩ ∈ d.namespacesInScope n
  nodup : ∀ n, ((d.namespacesInScope n).map (·.qualifier)).Nodup

variable {d : Document}

/-- In a document whose tags stand for themselves in their scopes, the resolvers agree. -/
theorem Tidy.resolversAgree (h : d.Tidy Tag.Reads) : d.ResolversAgree := by
  obtain ⟨forest, -, hd, hforest⟩ := h
  refine ⟨fun n tag hn => ?_, fun n attr hn => ?_, fun n qualifier hxml uri => ?_,
    nodup_namespacesInScope⟩
  · obtain ⟨place, attr⟩ := n
    cases attr with
    | some index => cases hn
    | none =>
      obtain ⟨parent, children, hholds, hreads, -⟩ := hd.tidy_of_tag hforest hn
      rw [hreads.uri, ← hholds.reachingDeclarations hd]
      rfl
  · obtain ⟨tag, htag, hn⟩ := Option.bind_eq_some_iff.1 hn
    obtain ⟨index, -, hn⟩ := Option.bind_eq_some_iff.1 hn
    obtain ⟨parent, children, hholds, hreads, -⟩ := hd.tidy_of_tag hforest htag
    have hattr := (hreads.attributes attr (List.mem_of_getElem? hn)).toResolved
    rw [← hholds.reachingDeclarations hd] at hattr
    have huri := hattr.uri
    have hbound := hattr.bound
    cases hq : attr.name.qualifier with
    | none => rwa [hq] at huri
    | some qualifier =>
      rw [hq] at huri hbound
      exact ⟨hbound rfl, huri⟩
  · rw [lookupNamespace_eq, ← lookup_firstOfEach]
    exact lookup_eq_some_iff (nodup_namespacesInScope n) hxml

/-- In a document that is built from raw tags without repeated keys, and in every copy of it, all
ways of resolving a qualifier agree. -/
theorem build_resolversAgree {steps : List Assembly.Step} (hraw : ∀ s ∈ steps, s.IsRaw)
    (h : Document.build steps = .ok d) : ∀ copy, d.Copies copy → copy.ResolversAgree := by
  obtain ⟨tag, children, hd, htidy⟩ := build_tidy (fun s hs => (hraw s hs).opens) h
  intro copy hcopy
  have hforest : d.Tidy Tag.Reads := ⟨_, .inr ⟨tag, children, rfl⟩, hd, htidy, trivial⟩
  exact (hcopy.tidy portable_reads hforest).resolversAgree

/-- Shadowed and withdrawn bindings, with `xml` declared anew. -/
theorem build_resolversAgree_of_shadowed :
    ∃ d, Document.build [.openRaw "p:a" [("xmlns:p", "urn:p"), ("xmlns", "urn:d"), ("p:x", "1")],
        .openRaw "b" [("xmlns", ""), ("xmlns:xml", "urn:x"), ("xml:lang", "en")], .close "b",
        .openRaw "p:c" [("p:y", "2"), ("xmlns:p", "urn:q"), ("x", "3")], .close "p:c",
        .close "p:a"] = .ok d ∧ ∀ copy, d.Copies copy → copy.ResolversAgree := by
  obtain ⟨d, hbuild⟩ := exists_eq_ok (x := Document.build
    [.openRaw "p:a" [("xmlns:p", "urn:p"), ("xmlns", "urn:d"), ("p:x", "1")],
      .openRaw "b" [("xmlns", ""), ("xmlns:xml", "urn:x"), ("xml:lang", "en")], .close "b",
      .openRaw "p:c" [("p:y", "2"), ("xmlns:p", "urn:q"), ("x", "3")], .close "p:c",
      .close "p:a"]) (by decide +kernel)
  exact ⟨d, hbuild, build_resolversAgree (by decide) hbuild⟩

end Document

end SoapKit.Xml
