import SoapKit.Proofs.Xml.Namespaces
import SoapKit.Proofs.Xml.Production
import SoapKit.Proofs.Xml.Taking

/-!
# Documents that are built

A document is built by a run of steps on an assembly (`Document.build`). Whatever the steps are, the
trees of an assembly stay tidy: no run of character data is blank, no two runs stand side by side,
and a tag keeps what it had in its scope when it was opened.

The invariant speaks of the frames and of what the innermost one holds (`Frame.Tidy`). An opening
asks for the property of the new tag, a closing moves the innermost element among its siblings, and
character data joins a run that ends there, so every step keeps it (`Assembly.Tidy.step`) and a
finished document lists a tidy element (`Document.build_tidy`).

A standalone copy lists the tree of an element in another scope, where namespaces are looked up with
the same result. So a property of tags that goes over to such scopes (`Tag.Portable`) goes over to
copies and to copies of these (`Document.Copies.tidy`).
-/

namespace SoapKit.Xml

open SoapKit.Xml.Tree
open Declaration (lookup)

/-! ## Runs of steps -/

/-- A step of building a document. -/
inductive Assembly.Step where
  | openRaw (written : String) (attributes : List (String × String))
  | openTag (tag : Tag)
  | close (written : String)
  | addText (data : String)

/-- An assembly after a step. -/
def Assembly.step (a : Assembly) : Step → Except ParseError Assembly
  | .openRaw written attributes => a.openRaw written attributes
  | .openTag tag => a.openTag tag
  | .close written => a.close written
  | .addText data => a.addText data

/-- The document that is finished after a run of steps. -/
def Document.build (steps : List Assembly.Step) : Except ParseError Document := do
  let a ← steps.foldlM Assembly.step Assembly.start
  a.finish

/-! ## Tidy trees -/

/-- At most one of two trees is a run of character data. -/
def Tree.Apart (t u : Tree) : Prop :=
  t.isText = false ∨ u.isText = false

section Tidy

variable (P : List Declaration → Tag → Prop)

mutual

/-- A tree without blank runs and without runs side by side, whose tags have a property in their
scopes. -/
def Tree.Tidy (scope : List Declaration) : Tree → Prop
  | .text data => Text.isAllBlank data = false
  | .element tag children =>
    P scope tag ∧ Tree.TidyAll (tag.declarations ++ scope) children ∧ children.IsChain Tree.Apart

/-- Tidy trees inside of one scope. -/
def Tree.TidyAll (scope : List Declaration) : List Tree → Prop
  | [] => True
  | t :: rest => t.Tidy scope ∧ Tree.TidyAll scope rest

end

/-- Open elements and what the innermost one holds, all of it tidy. -/
def Frame.Tidy : List Frame → List Tree → Prop
  | [], done => TidyAll P [] done ∧ done.IsChain Apart
  | f :: outer, done =>
    P (scope outer) f.tag ∧ (TidyAll P (scope (f :: outer)) done ∧ done.IsChain Apart) ∧
      Frame.Tidy outer f.before

/-- An assembly of tidy frames and trees. -/
def Assembly.Tidy (a : Assembly) : Prop :=
  ∃ frames done, a.Shows frames done ∧ Frame.Tidy P frames done

/-- Whatever tag a step opens has a property in the scope where it is opened. -/
def Assembly.Step.Opens : Assembly.Step → Prop
  | .openRaw written attributes =>
    ∀ scope tag, Tag.Resolved scope written attributes tag → P scope tag.sorted
  | .openTag tag => ∀ scope, P scope tag.sorted
  | .close _ => True
  | .addText _ => True

/-- A document that lists at most one element, a tidy one. -/
def Document.Tidy (d : Document) : Prop :=
  ∃ forest, Rooted forest ∧ d.Shows forest ∧ TidyAll P [] forest

end Tidy

variable {P : List Declaration → Tag → Prop} {scope : List Declaration}

theorem Tree.tidyAll_iff {forest : List Tree} :
    TidyAll P scope forest ↔ ∀ t ∈ forest, t.Tidy P scope := by
  induction forest with
  | nil => simp [TidyAll]
  | cons t rest ih => rw [TidyAll, ih, List.forall_mem_cons]

theorem Tree.tidyAll_append {xs ys : List Tree} :
    TidyAll P scope (xs ++ ys) ↔ TidyAll P scope xs ∧ TidyAll P scope ys := by
  simp only [tidyAll_iff, List.forall_mem_append]

theorem isAllBlank_append {s t : String} (h : Text.isAllBlank s = false) :
    Text.isAllBlank (s ++ t) = false := by
  rw [Text.isAllBlank, String.toList_append, List.all_append, Bool.and_eq_false_iff]
  exact .inl h

/-- Character data that joins tidy trees leaves them tidy. -/
theorem Tree.tidy_addText {done : List Tree} {data : String}
    (h : TidyAll P scope done ∧ done.IsChain Apart) (hdata : Text.isAllBlank data = false) :
    TidyAll P scope (addText done data) ∧ (addText done data).IsChain Apart := by
  obtain ⟨hall, hchain⟩ := h
  rcases List.eq_nil_or_concat done with rfl | ⟨init, t, rfl⟩
  · exact ⟨⟨hdata, trivial⟩, List.isChain_singleton _⟩
  · rw [List.concat_eq_append] at *
    rw [tidyAll_append] at hall
    cases t with
    | element tag children =>
      simp only [addText, List.getLast?_concat]
      refine ⟨?_, hchain.append (List.isChain_singleton _) ?_⟩
      · rw [tidyAll_append, tidyAll_append]
        exact ⟨hall, hdata, trivial⟩
      · rintro u hu v -
        rw [List.getLast?_concat] at hu
        cases hu
        exact .inl rfl
    | text before =>
      simp only [addText, List.getLast?_concat, List.dropLast_concat]
      rw [List.isChain_append] at hchain
      refine ⟨?_, hchain.1.append (List.isChain_singleton _) fun u hu v hv => ?_⟩
      · rw [tidyAll_append]
        exact ⟨hall.1, isAllBlank_append hall.2.1, trivial⟩
      · cases hv
        exact .inl ((hchain.2.2 u hu _ rfl).resolve_right (by simp [isText]))

/-! ## The invariant of a step -/

namespace Frame

theorem Tidy.done {frames : List Frame} {done : List Tree} (h : Tidy P frames done) :
    TidyAll P (Frame.scope frames) done ∧ done.IsChain Apart := by
  cases frames with
  | nil => exact h
  | cons f outer => exact h.2.1

theorem Tidy.replace {frames : List Frame} {done done' : List Tree} (h : Tidy P frames done)
    (hdone : TidyAll P (Frame.scope frames) done' ∧ done'.IsChain Apart) :
    Tidy P frames done' := by
  cases frames with
  | nil => exact hdone
  | cons f outer => exact ⟨h.1, hdone, h.2.2⟩

end Frame

namespace Assembly

variable {a a' : Assembly}

theorem tidy_start : Assembly.start.Tidy P :=
  ⟨[], [], shows_start, trivial, List.isChain_nil⟩

theorem Tidy.openTag (ha : a.Tidy P) {tag : Tag} (htag : P a.scopes.flatten tag.sorted)
    (h : a.openTag tag = .ok a') : a'.Tidy P := by
  obtain ⟨frames, done, hs, htidy⟩ := ha
  rw [hs.scopes_flatten] at htag
  rcases hs.openTag tag with ⟨-, -, herror⟩ | ⟨-, b, hb, hs'⟩
  · rw [herror] at h
    cases h
  · rw [hb] at h
    cases h
    exact ⟨_, _, hs', htag, ⟨trivial, List.isChain_nil⟩, htidy⟩

theorem Tidy.close (ha : a.Tidy P) {written : String} (h : a.close written = .ok a') :
    a'.Tidy P := by
  obtain ⟨frames, done, hs, htidy⟩ := ha
  cases frames with
  | nil =>
    rw [hs.close_nil] at h
    cases h
  | cons f outer =>
    obtain ⟨b, hb, hs'⟩ := hs.close written
    rw [hb] at h
    cases h
    obtain ⟨htag, hdone, houter⟩ := htidy
    refine ⟨_, _, hs', houter.replace ⟨?_, houter.done.2.append (List.isChain_singleton _) ?_⟩⟩
    · rw [tidyAll_append]
      exact ⟨houter.done.1, ⟨htag, hdone⟩, trivial⟩
    · rintro u - v hv
      cases hv
      exact .inr rfl

theorem Tidy.addText (ha : a.Tidy P) {data : String} (h : a.addText data = .ok a') :
    a'.Tidy P := by
  obtain ⟨frames, done, hs, htidy⟩ := ha
  by_cases hdata : Text.isAllBlank data = true
  · rw [addText_blank hdata] at h
    cases h
    exact ⟨_, _, hs, htidy⟩
  · rw [Bool.not_eq_true] at hdata
    by_cases hframes : frames = []
    · subst hframes
      rw [hs.addText_nil hdata] at h
      cases h
    · obtain ⟨b, hb, hs'⟩ := hs.addText hdata hframes
      rw [hb] at h
      cases h
      exact ⟨_, _, hs', htidy.replace (tidy_addText htidy.done hdata)⟩

/-- A step keeps an assembly tidy, if the tag that it opens has the property. -/
theorem Tidy.step (ha : a.Tidy P) {s : Step} (hs : s.Opens P) (h : a.step s = .ok a') :
    a'.Tidy P := by
  cases s with
  | openRaw written attributes =>
    obtain ⟨tag, htag, h⟩ := exists_resolved_of_openRaw h
    exact ha.openTag (hs _ _ htag) h
  | openTag tag => exact ha.openTag (hs _) h
  | close written => exact ha.close h
  | addText data => exact ha.addText h

theorem kept_tidy (hP : ∀ scope written attributes tag, (attributes.map (·.1)).Nodup →
    Tag.Resolved scope written attributes tag → P scope tag.sorted) : Kept (Tidy P) where
  openRaw ha hnodup h := by
    obtain ⟨tag, htag, h⟩ := exists_resolved_of_openRaw h
    exact ha.openTag (hP _ _ _ _ hnodup htag) h
  close ha h := ha.close h
  addText ha h := ha.addText h

theorem Tidy.finish (ha : a.Tidy P) {d : Document} (h : a.finish = .ok d) :
    ∃ tag children, d.Shows [.element tag children] ∧ d.registered = [] ∧
      (Tree.element tag children).Tidy P [] := by
  obtain ⟨frames, done, hs, htidy⟩ := ha
  obtain ⟨rfl, hd, hregistered, tag, children, rfl⟩ := hs.finish h
  exact ⟨tag, children, hd, hregistered, htidy.1.1⟩

end Assembly

namespace Document

/-- A document that is built lists one element, and it is tidy. -/
theorem build_tidy {steps : List Assembly.Step} {d : Document}
    (hsteps : ∀ s ∈ steps, s.Opens P) (h : Document.build steps = .ok d) :
    ∃ tag children, d.Shows [.element tag children] ∧ (Tree.element tag children).Tidy P [] := by
  obtain ⟨a, ha, h⟩ := bind_eq_ok.1 h
  have htidy : a.Tidy P :=
    foldlM_keeps_of_forall (fun s hs _ _ hb hc => hb.step (hsteps s hs) hc) Assembly.tidy_start ha
  obtain ⟨tag, children, hd, -, ht⟩ := htidy.finish h
  exact ⟨tag, children, hd, ht⟩

/-! ## The trees of a tidy document -/

variable {d : Document} {forest : List Tree}

/-- Every place but the document's holds a tidy tree, in the scope that reaches its parent. The
induction is on the place, as a parent stands before its children. -/
theorem Shows.locate_tidy (hd : d.Shows forest) (hforest : TidyAll P [] forest) {m : Nat}
    (hpos : 0 < m) (hlt : m < d.entries.size) :
    ∃ q t, d.Holds q m t ∧ t.Tidy P (d.reachingDeclarations (Node.ofPlace q)) := by
  induction m using Nat.strong_induction_on with
  | _ m ih =>
    obtain ⟨q, t, ht, hmem⟩ := hd.locate hpos hlt
    have hqm := hd.lt_of_isChild ht.isChild
    rcases Nat.eq_zero_or_pos q with rfl | hq
    · rw [hd.entry_zero] at hmem
      obtain ⟨u, hu, hholds, -⟩ := hd.holdsAll.of_mem_places hmem
      have hroot : d.reachingDeclarations (Node.ofPlace 0) = [] := hd.reachingDeclarations_root
      exact ⟨0, u, hholds, by rw [hroot]; exact tidyAll_iff.1 hforest u hu⟩
    · obtain ⟨p, parent, hparent, htidy⟩ := ih q hqm hq (by omega)
      cases parent with
      | text data =>
        rw [hparent.entry_text] at hmem
        cases hmem
      | element tag children =>
        rw [hparent.entry_element] at hmem
        obtain ⟨u, hu, hholds, -⟩ := hparent.children.of_mem_places hmem
        refine ⟨q, u, hholds, ?_⟩
        rw [hparent.reachingDeclarations hd]
        exact tidyAll_iff.1 htidy.2.1 u hu

/-- The tree at an element of a tidy document. -/
theorem Shows.tidy_of_tag (hd : d.Shows forest) (hforest : TidyAll P [] forest) {place : Nat}
    {tag : Tag} (hn : d.tagAt place = some tag) :
    ∃ parent children, d.Holds parent place (.element tag children) ∧
      (Tree.element tag children).Tidy P (d.reachingDeclarations (Node.ofPlace parent)) := by
  obtain ⟨-, parent, children, hholds⟩ := hd.holds_of_tag (n := Node.ofPlace place) hn
  have hlt : place < d.entries.size := hholds.isChild.1
  have hpos : 0 < place := Nat.zero_lt_of_lt (hd.lt_of_isChild hholds.isChild)
  obtain ⟨q, t, ht, htidy⟩ := hd.locate_tidy hforest hpos hlt
  cases t with
  | text data =>
    rw [tagAt, ht.entry_text] at hn
    cases hn
  | element tag' children' =>
    rw [ht.tagAt_element] at hn
    cases hn
    exact ⟨q, children', ht, htidy⟩

/-! ## Scopes in which namespaces are looked up alike -/

theorem nodup_firstOfEach {seen : List (Option String)} {declarations : List Declaration} :
    ((firstOfEach seen declarations).map (·.qualifier)).Nodup ∧
      ∀ qualifier ∈ seen, qualifier ∉ (firstOfEach seen declarations).map (·.qualifier) := by
  induction declarations generalizing seen with
  | nil => simp [firstOfEach]
  | cons first rest ih =>
    rw [firstOfEach]
    split
    · exact ih
    · rename_i hfirst
      obtain ⟨hnodup, hseen⟩ := @ih (first.qualifier :: seen)
      rw [List.forall_mem_cons] at hseen
      rw [List.map_cons]
      refine ⟨List.nodup_cons.2 ⟨hseen.1, hnodup⟩, fun qualifier hmem hin => ?_⟩
      rcases List.mem_cons.1 hin with rfl | hin
      · exact hfirst (by simpa using hmem)
      · exact hseen.2 qualifier hmem hin

theorem nodup_namespacesInScope (n : Node) :
    ((d.namespacesInScope n).map (·.qualifier)).Nodup :=
  nodup_firstOfEach.1

/-- The declarations in effect stand for what all declarations do. -/
theorem lookup_firstOfEach (qualifier : Option String) :
    lookup (firstOfEach [] scope) qualifier = lookup scope qualifier := by
  rw [lookup, lookup, find?_firstOfEach List.not_mem_nil]

theorem lookup_reverse_firstOfEach (qualifier : Option String) :
    lookup (firstOfEach [] scope).reverse qualifier = lookup scope qualifier := by
  have hperm := lookup_perm (List.reverse_perm (firstOfEach [] scope)) nodup_firstOfEach.1 []
    qualifier
  rwa [List.append_nil, List.append_nil, lookup_firstOfEach] at hperm

end Document

theorem lookup_append_congr {own scope' : List Declaration}
    (h : ∀ qualifier, lookup scope' qualifier = lookup scope qualifier)
    (qualifier : Option String) :
    lookup (own ++ scope') qualifier = lookup (own ++ scope) qualifier := by
  by_cases hown : ∃ declaration ∈ own, declaration.qualifier = qualifier
  · obtain ⟨declaration, hfind⟩ : ∃ declaration,
        own.find? (·.qualifier == qualifier) = some declaration := by
      rw [← Option.isSome_iff_exists, List.find?_isSome]
      simpa using hown
    rw [lookup, lookup, List.find?_append, List.find?_append, hfind]
    rfl
  · push Not at hown
    rw [lookup_append_of_not_mem hown, lookup_append_of_not_mem hown, h]

/-! ## Copies -/

/-- A property of tags that only matters up to what the scope's namespaces are looked up as, and
that a tag keeps when it takes over all declarations that are in effect. -/
structure Tag.Portable (P : List Declaration → Tag → Prop) : Prop where
  congr {scope scope' : List Declaration} {tag : Tag} :
    (∀ qualifier, lookup scope' qualifier = lookup scope qualifier) → P scope tag → P scope' tag
  lifted {scope : List Declaration} {tag : Tag} : P scope tag →
    P [] { tag with declarations := (Document.firstOfEach [] (tag.declarations ++ scope)).reverse }

/-- A property of tags that only matters up to what the scope's namespaces are looked up as. -/
def Tag.Congruent (P : List Declaration → Tag → Prop) : Prop :=
  ∀ scope scope' tag, (∀ qualifier, lookup scope' qualifier = lookup scope qualifier) →
    P scope tag → P scope' tag

theorem Tag.Portable.congruent (hP : Tag.Portable P) : Tag.Congruent P :=
  fun _ _ _ => hP.congr

mutual

theorem Tree.Tidy.congr (hP : Tag.Congruent P) {scope scope' : List Declaration}
    (hscope : ∀ qualifier, lookup scope' qualifier = lookup scope qualifier) :
    ∀ {t : Tree}, t.Tidy P scope → t.Tidy P scope'
  | .text _, h => h
  | .element _ _, h =>
    ⟨hP _ _ _ hscope h.1, Tree.TidyAll.congr hP (lookup_append_congr hscope) h.2.1, h.2.2⟩

theorem Tree.TidyAll.congr (hP : Tag.Congruent P) {scope scope' : List Declaration}
    (hscope : ∀ qualifier, lookup scope' qualifier = lookup scope qualifier) :
    ∀ {forest : List Tree}, TidyAll P scope forest → TidyAll P scope' forest
  | [], _ => trivial
  | _ :: _, h => ⟨Tree.Tidy.congr hP hscope h.1, Tree.TidyAll.congr hP hscope h.2⟩

end

namespace Document

/-- A document, and the standalone copies made of it and of its copies. -/
inductive Copies (d : Document) : Document → Prop where
  | self : Copies d d
  | subtree {copy : Document} (n : Node) : Copies d copy → Copies d (copy.subtree n)

variable {d : Document}

/-- The copy of an element of a tidy document lists a tidy element. -/
theorem Tidy.subtree_element (hP : Tag.Portable P) (hd : d.Tidy P) {n : Node}
    (hn : d.isElement n = true) :
    ∃ tag children, (d.subtree n).Shows [.element tag children] ∧
      (Tree.element tag children).Tidy P [] := by
  obtain ⟨forest, -, hshows, hforest⟩ := hd
  obtain ⟨place, attr⟩ := n
  cases attr with
  | some index => cases hn
  | none =>
    obtain ⟨tag, htag⟩ := Option.isSome_iff_exists.1 hn
    obtain ⟨parent, children, hholds, htagged, hall, hchain⟩ := hshows.tidy_of_tag hforest htag
    refine ⟨_, _, hholds.subtree, ?_, ?_, hchain⟩
    · rw [namespacesInScope, hholds.reachingDeclarations hshows]
      exact hP.lifted htagged
    · refine hall.congr hP.congruent fun qualifier => ?_
      rw [List.append_nil, namespacesInScope, hholds.reachingDeclarations hshows]
      exact lookup_reverse_firstOfEach qualifier

/-- All copies of a tidy document are tidy. -/
theorem Copies.tidy (hP : Tag.Portable P) (hd : d.Tidy P) {copy : Document} (h : d.Copies copy) :
    copy.Tidy P := by
  induction h with
  | self => exact hd
  | @subtree copy n _ ih =>
    by_cases hn : copy.isElement n = true
    · obtain ⟨tag, children, hshows, htidy⟩ := ih.subtree_element hP hn
      exact ⟨_, .inr ⟨tag, children, rfl⟩, hshows, htidy, trivial⟩
    · rw [Bool.not_eq_true] at hn
      exact ⟨[], .inl rfl, subtree_of_not_element hn, trivial⟩

end Document

end SoapKit.Xml
