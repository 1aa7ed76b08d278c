import SoapKit.Proofs.Discovery
import SoapKit.Proofs.Except
import SoapKit.Wsdl.Collection

/-!
# What is collected

**Theorem (`collectWith_shelf`).** Documents are collected from a shelf if and only if every URL
that is reachable from the first one can be opened. Then the reachable documents are collected, each
once, in the order of their first references, and each is read in the bindings that its first
reference hands down. Otherwise the error is that of the first document in this order that cannot be
opened.

Reachability is a matter of URLs alone, whereas the search carries bindings along and takes texts
off the shelf. The proof goes over the steps of the search with the invariant `Underway`: the search
is a discovery (`Discovered`) in which URLs are the keys, and what is left on the shelf is the same
as before for all URLs that were not opened.
-/

namespace SoapKit.Wsdl

variable {join : Joining} {dialect : Xml.Dialect} {texts rest : OrderedMap String String}

/-! ## References of documents -/

/-- An element of a document that refers to another document, and the location that it gives. -/
inductive Refers (d : Xml.Document) (n : Xml.Node) (location : String) : Prop
  | included : d.isNamed n Soap.schemaNamespace "include" →
      d.attributeValue n "schemaLocation" = some location → Refers d n location
  | imported : d.isNamed n Soap.schemaNamespace "import" →
      d.attributeValue n "schemaLocation" = some location → Refers d n location
  | importedService : d.isNamed n wsdlNamespace "import" →
      d.attributeValue n "location" = some location → Refers d n location

/-- A document refers to a location. -/
def Mentions (d : Xml.Document) (location : String) : Prop :=
  ∃ n ∈ d.elementsBelow Xml.Document.root, Refers d n location

/-- The document that is read from the text at a URL. -/
def documentAt (dialect : Xml.Dialect) (texts : OrderedMap String String) (url : String) :
    Option Xml.Document :=
  (texts.get? url).bind fun text => (Xml.Document.read dialect text).toOption

/-- The URLs that documents lead to, by their references and those of the documents there. -/
inductive Reachable (join : Joining) (dialect : Xml.Dialect) (texts : OrderedMap String String)
    (start : String) : String → Prop
  | start : Reachable join dialect texts start start
  | reference {url location : String} {d : Xml.Document} {target : Url} :
      Reachable join dialect texts start url → documentAt dialect texts url = some d →
      Mentions d location → join url location = .ok target →
      Reachable join dialect texts start target.text

/-- There is a document at a URL, and its references can be joined to it. -/
def Opens (join : Joining) (dialect : Xml.Dialect) (texts : OrderedMap String String)
    (url : String) : Prop :=
  ∃ d, documentAt dialect texts url = some d ∧
    ∀ location, Mentions d location → ∃ target, join url location = .ok target

/-- The bindings in which a document is read: those handed down, and those of its root. -/
def Pending.namesIn (p : Pending) (d : Xml.Document) : NameScope :=
  match d.documentElement with
  | some top => p.names.enter d top
  | none => p.names

namespace SourceDocument

variable {source : SourceDocument} {n : Xml.Node}

theorem isNamed_iff {d : Xml.Document} {uri name : String} :
    d.isNamed n uri name = true ↔ d.uriOf n = some uri ∧ d.nameOf n = name := by
  simp [Xml.Document.isNamed]

theorem wsdlNamespace_ne : wsdlNamespace ≠ Soap.schemaNamespace := by
  decide

theorem refers_iff {location : String} :
    Refers source.document n location ↔
      source.isReference n = true ∧ source.location? n = some location := by
  have hreference : source.isReference n = true ↔
      (source.document.uriOf n = some Soap.schemaNamespace ∧
        (source.document.nameOf n = "include" ∨ source.document.nameOf n = "import")) ∨
      (source.document.uriOf n = some wsdlNamespace ∧ source.document.nameOf n = "import") := by
    simp only [isReference, Bool.or_eq_true, isNamed_iff]
    tauto
  rw [hreference, location?]
  constructor
  · rintro (⟨hname, hlocation⟩ | ⟨hname, hlocation⟩ | ⟨hname, hlocation⟩)
    all_goals obtain ⟨huri, hname⟩ := isNamed_iff.1 hname
    all_goals simp [huri, hname, hlocation, wsdlNamespace_ne, wsdlNamespace_ne.symm]
  · rintro ⟨⟨huri, hname⟩ | ⟨huri, hname⟩, hlocation⟩
    · rw [if_neg (by simp [huri, wsdlNamespace_ne.symm])] at hlocation
      rcases hname with hname | hname
      · exact .included (isNamed_iff.2 ⟨huri, hname⟩) hlocation
      · exact .imported (isNamed_iff.2 ⟨huri, hname⟩) hlocation
    · rw [if_pos huri] at hlocation
      exact .importedService (isNamed_iff.2 ⟨huri, hname⟩) hlocation

theorem reference_eq_ok {found : Option Pending} :
    reference join source n = .ok found ↔
      (source.location? n = none ∧ found = none) ∨
      ∃ location url, source.location? n = some location ∧
        join source.url.text location = .ok url ∧ found = some ⟨url, source.inherited n⟩ := by
  unfold reference
  cases hlocation : source.location? n with
  | none => simp [eq_comm]
  | some location =>
    cases hjoin : join source.url.text location with
    | error e => simp [hjoin]
    | ok url => simp [hjoin, eq_comm]

theorem references_eq_ok {found : List Pending} :
    source.references join = .ok found ↔
      ∃ all, List.Forall₂ (fun n p => reference join source n = .ok p)
        ((source.document.elementsBelow Xml.Document.root).filter source.isReference) all ∧
        found = all.filterMap id := by
  simp only [references, bind_eq_ok, mapM_eq_ok_iff]
  constructor
  · rintro ⟨all, hall, h⟩
    cases h
    exact ⟨all, hall, rfl⟩
  · rintro ⟨all, hall, rfl⟩
    exact ⟨all, hall, rfl⟩

/-- What is found are the URLs of the locations that a document mentions. -/
theorem exists_mentions {found : List Pending} (h : source.references join = .ok found)
    {p : Pending} (hp : p ∈ found) :
    ∃ location, Mentions source.document location ∧ join source.url.text location = .ok p.url := by
  obtain ⟨all, hall, rfl⟩ := references_eq_ok.1 h
  have hmem : some p ∈ all := by simpa using hp
  obtain ⟨n, hn, hreference⟩ := exists_mem_of_forall₂ hall hmem
  rw [List.mem_filter] at hn
  rcases reference_eq_ok.1 hreference with ⟨-, hnone⟩ | ⟨location, url, hlocation, hjoin, heq⟩
  · cases hnone
  · cases heq
    exact ⟨location, ⟨n, hn.1, refers_iff.2 ⟨hn.2, hlocation⟩⟩, hjoin⟩

theorem exists_found {found : List Pending} (h : source.references join = .ok found)
    {location : String} (hlocation : Mentions source.document location) :
    ∃ p ∈ found, join source.url.text location = .ok p.url := by
  obtain ⟨all, hall, rfl⟩ := references_eq_ok.1 h
  obtain ⟨n, hn, hrefers⟩ := hlocation
  obtain ⟨hreference, hlocation⟩ := refers_iff.1 hrefers
  obtain ⟨p, hp, hfound⟩ := exists_mem_of_forall₂ hall.flip (List.mem_filter.2 ⟨hn, hreference⟩)
  rcases reference_eq_ok.1 hfound with ⟨hnone, -⟩ | ⟨location', url, hlocation', hjoin, rfl⟩
  · rw [hlocation] at hnone
    cases hnone
  · rw [hlocation] at hlocation'
    cases hlocation'
    exact ⟨⟨url, source.inherited n⟩, by simpa using hp, hjoin⟩

theorem exists_references
    (h : ∀ location, Mentions source.document location →
      ∃ target, join source.url.text location = .ok target) :
    ∃ found, source.references join = .ok found := by
  have hall : ∀ n ∈ (source.document.elementsBelow Xml.Document.root).filter source.isReference,
      ∃ p, reference join source n = .ok p := by
    intro n hn
    rw [List.mem_filter] at hn
    cases hlocation : source.location? n with
    | none => exact ⟨none, reference_eq_ok.2 (.inl ⟨hlocation, rfl⟩)⟩
    | some location =>
      obtain ⟨url, hjoin⟩ := h location ⟨n, hn.1, refers_iff.2 ⟨hn.2, hlocation⟩⟩
      exact ⟨_, reference_eq_ok.2 (.inr ⟨location, url, hlocation, hjoin, rfl⟩)⟩
  obtain ⟨found, hfound⟩ := exists_forall₂ hall
  exact ⟨_, references_eq_ok.2 ⟨found, hfound, rfl⟩⟩

end SourceDocument

/-! ## Opening one document -/

/-- The document that is referred to, in the bindings handed down to it. -/
def Pending.source (p : Pending) (d : Xml.Document) : SourceDocument :=
  ⟨p.url, d, p.namesIn d⟩

/-- Opening a document: it is read from its text, and what it refers to is found. -/
def expand (join : Joining) (dialect : Xml.Dialect) (texts : OrderedMap String String)
    (p : Pending) : Except Error (SourceDocument × List Pending) := do
  let (source, _) ← Collection.fetch dialect (.shelf texts) p
  return (source, ← source.references join)

/-- What a document refers to, when it can be opened. -/
def mentionedBy (join : Joining) (dialect : Xml.Dialect) (texts : OrderedMap String String)
    (p : Pending) : List Pending :=
  match expand join dialect texts p with
  | .ok (_, found) => found
  | .error _ => []

/-- Fetching from a shelf depends on the text at the URL only, which it takes off. -/
theorem fetch_shelf {p : Pending} (h : rest.get? p.url.text = texts.get? p.url.text) :
    Collection.fetch dialect (.shelf rest) p =
      (Collection.fetch dialect (.shelf texts) p).map
        fun (source, _) => (source, .shelf (rest.erase p.url.text)) := by
  simp only [Collection.fetch, Library.fetch, h]
  cases texts.get? p.url.text with
  | none => rfl
  | some text =>
    cases hread : Xml.Document.read dialect text with
    | error e => simp [hread, Except.map]
    | ok d => simp [hread, Except.map]

theorem fetch_eq_ok {p : Pending} {source : SourceDocument} {library : Library} :
    Collection.fetch dialect (.shelf texts) p = .ok (source, library) ↔
      ∃ d, documentAt dialect texts p.url.text = some d ∧ source = p.source d ∧
        library = .shelf (texts.erase p.url.text) := by
  simp only [Collection.fetch, Library.fetch, documentAt]
  cases texts.get? p.url.text with
  | none => simp
  | some text =>
    cases hread : Xml.Document.read dialect text with
    | error e => simp [hread, Except.toOption]
    | ok d =>
      simp only [hread, Except.toOption, Option.bind_some, Except.ok.injEq, Prod.mk.injEq,
        Option.some.injEq, exists_eq_left', eq_comm (b := library)]
      exact and_congr_left fun _ => eq_comm

theorem expand_eq_ok {p : Pending} {source : SourceDocument} {found : List Pending} :
    expand join dialect texts p = .ok (source, found) ↔
      ∃ d, documentAt dialect texts p.url.text = some d ∧ source = p.source d ∧
        source.references join = .ok found := by
  simp only [expand, bind_eq_ok, Prod.exists, fetch_eq_ok]
  constructor
  · rintro ⟨_, _, ⟨d, hd, rfl, rfl⟩, found, hfound, h⟩
    cases h
    exact ⟨d, hd, rfl, hfound⟩
  · rintro ⟨d, hd, rfl, hfound⟩
    exact ⟨_, _, ⟨d, hd, rfl, rfl⟩, found, hfound, rfl⟩

theorem mentionedBy_eq {p : Pending} {source : SourceDocument} {found : List Pending}
    (h : expand join dialect texts p = .ok (source, found)) :
    mentionedBy join dialect texts p = found := by
  rw [mentionedBy, h]

/-- A document can be opened if and only if its URL can. -/
theorem exists_expand_iff {p : Pending} :
    (∃ opened, expand join dialect texts p = .ok opened) ↔
      Opens join dialect texts p.url.text := by
  simp only [Prod.exists, expand_eq_ok]
  constructor
  · rintro ⟨_, found, d, hd, rfl, hfound⟩
    refine ⟨d, hd, fun location hlocation => ?_⟩
    obtain ⟨target, -, htarget⟩ := SourceDocument.exists_found hfound hlocation
    exact ⟨target.url, htarget⟩
  · rintro ⟨d, hd, hjoin⟩
    have hfound : ∃ found, (p.source d).references join = .ok found :=
      SourceDocument.exists_references hjoin
    obtain ⟨found, hfound⟩ := hfound
    exact ⟨_, found, d, hd, rfl, hfound⟩

/-- What a document refers to is reachable when the document is. -/
theorem Reachable.mentionedBy {start : String} {p q : Pending}
    (h : Reachable join dialect texts start p.url.text)
    (hq : q ∈ mentionedBy join dialect texts p) :
    Reachable join dialect texts start q.url.text := by
  unfold Wsdl.mentionedBy at hq
  split at hq
  · next source found hexpand =>
    obtain ⟨d, hd, rfl, hfound⟩ := expand_eq_ok.1 hexpand
    obtain ⟨location, hlocation, hjoin⟩ := SourceDocument.exists_mentions hfound hq
    exact h.reference hd hlocation hjoin
  · cases hq

/-! ## Searches -/

/-- A document is opened as a certain source. -/
def OpensAs (join : Joining) (dialect : Xml.Dialect) (texts : OrderedMap String String)
    (p : Pending) (source : SourceDocument) : Prop :=
  expand join dialect texts p = .ok (source, mentionedBy join dialect texts p)

/-- A search from a URL, with the documents that are open and those that wait. -/
abbrev Search (join : Joining) (dialect : Xml.Dialect) (texts : OrderedMap String String)
    (start : Url) (opened waiting : List Pending) : Prop :=
  Discovered (fun p => p.url.text) (mentionedBy join dialect texts) [⟨start, .empty⟩] opened waiting

/-- How a search ends: when all that it met is open, or when a document cannot be opened. -/
inductive Outcome (join : Joining) (dialect : Xml.Dialect) (texts : OrderedMap String String)
    (start : Url) (opened : List Pending) : Except Error (List SourceDocument) → Prop
  | complete {more : List Pending} {sources : List SourceDocument} :
      Search join dialect texts start (opened ++ more) [] →
      List.Forall₂ (OpensAs join dialect texts) more sources →
      Outcome join dialect texts start opened (.ok sources)
  | failed {more waiting : List Pending} {next : Pending} {e : Error} :
      Search join dialect texts start (opened ++ more) (next :: waiting) →
      (∀ p ∈ more, ∃ result, expand join dialect texts p = .ok result) →
      expand join dialect texts next = .error e →
      Outcome join dialect texts start opened (.error e)

/-- What holds between the steps of a search, of the URLs seen and of what is left on the shelf. -/
structure Underway (join : Joining) (dialect : Xml.Dialect) (texts : OrderedMap String String)
    (start : Url) (opened queue : List Pending) (seen : List String)
    (rest : OrderedMap String String) : Prop where
  search : Search join dialect texts start opened queue
  seen : ∀ url, url ∈ seen ↔ url ∈ (opened ++ queue).map fun p => p.url.text
  rest : ∀ url, url ∉ opened.map (fun p => p.url.text) → rest.get? url = texts.get? url

theorem foldl_note_unseen {seen : List String} {met found : List Pending}
    (h : ∀ url, url ∈ seen ↔ url ∈ met.map fun p => p.url.text) :
    found.foldl (note fun p => p.url.text) met = met ++ Collection.unseen seen found := by
  induction found generalizing seen met with
  | nil => simp [Collection.unseen]
  | cons first others ih =>
    rw [List.foldl_cons, Collection.unseen]
    by_cases hfirst : first.url.text ∈ met.map fun p => p.url.text
    · rw [note_of_mem hfirst, ih h, if_pos (by simpa using (h _).2 hfirst)]
    · have hnext : ∀ url, url ∈ first.url.text :: seen ↔
          url ∈ (met ++ [first]).map fun p => p.url.text := by
        intro url
        rw [List.mem_cons, h url, List.map_append, List.mem_append, List.map_singleton,
          List.mem_singleton, or_comm]
      rw [note_of_not_mem hfirst, ih hnext, if_neg (by simpa using mt (h _).1 hfirst),
        List.append_assoc, List.singleton_append]

namespace Underway

variable {start : Url} {opened queue waiting : List Pending} {seen : List String} {next : Pending}

theorem atStart (start : Url) :
    Underway join dialect texts start [] [⟨start, .empty⟩] [start.text] texts where
  search := Discovered.start ..
  seen := by simp
  rest := by simp

theorem step {source : SourceDocument} {found : List Pending}
    (h : Underway join dialect texts start opened (next :: waiting) seen rest)
    (hexpand : expand join dialect texts next = .ok (source, found)) :
    Underway join dialect texts start (opened ++ [next])
      (waiting ++ Collection.unseen seen found)
      ((Collection.unseen seen found).map (·.url.text) ++ seen) (rest.erase next.url.text) where
  search := by
    apply h.search.step
    rw [mentionedBy_eq hexpand, foldl_note_unseen h.seen]
    simp
  seen := by
    intro url
    rw [List.mem_append, h.seen]
    simp only [List.map_append, List.map_cons, List.mem_append, List.mem_cons]
    tauto
  rest := by
    intro url hurl
    rw [List.map_append, List.mem_append, not_or, List.map_singleton, List.mem_singleton] at hurl
    rw [OrderedMap.get?_erase_of_ne _ hurl.2, h.rest url hurl.1]

/-- The text at the next URL is still on the shelf, if it ever was. -/
theorem fetch_next (h : Underway join dialect texts start opened (next :: waiting) seen rest) :
    Collection.fetch dialect (.shelf rest) next =
      (Collection.fetch dialect (.shelf texts) next).map
        fun (source, _) => (source, .shelf (rest.erase next.url.text)) := by
  apply fetch_shelf
  apply h.rest
  have hnodup := h.search.nodup
  rw [List.map_append, List.nodup_append'] at hnodup
  exact fun hopened => hnodup.2.2 hopened List.mem_cons_self

theorem expand_next {source : SourceDocument} {library : Library}
    (h : Underway join dialect texts start opened (next :: waiting) seen rest)
    (hfetch : Collection.fetch dialect (.shelf rest) next = .ok (source, library)) :
    library = .shelf (rest.erase next.url.text) ∧
      expand join dialect texts next = (source.references join).map (source, ·) := by
  rw [h.fetch_next] at hfetch
  unfold expand
  cases hsource : Collection.fetch dialect (.shelf texts) next with
  | error e => simp [hsource, Except.map] at hfetch
  | ok result =>
    rw [hsource] at hfetch
    cases hfetch
    exact ⟨rfl, rfl⟩

theorem expand_next_error {e : Error}
    (h : Underway join dialect texts start opened (next :: waiting) seen rest)
    (hfetch : Collection.fetch dialect (.shelf rest) next = .error e) :
    expand join dialect texts next = .error e := by
  rw [h.fetch_next] at hfetch
  cases hsource : Collection.fetch dialect (.shelf texts) next with
  | ok result => simp [hsource, Except.map] at hfetch
  | error e' =>
    rw [hsource] at hfetch
    cases hfetch
    rw [expand, hsource]
    rfl

end Underway

namespace Outcome

variable {start : Url} {opened waiting : List Pending} {next : Pending}

theorem failed_next {e : Error} (h : Search join dialect texts start opened (next :: waiting))
    (hexpand : expand join dialect texts next = .error e) :
    Outcome join dialect texts start opened (.error e) := by
  have hsearch : Search join dialect texts start (opened ++ []) (next :: waiting) := by
    simpa using h
  exact .failed hsearch (by simp) hexpand

/-- The outcome of a search before a document was opened, from the outcome after it. -/
theorem before {source : SourceDocument} {found : List Pending}
    {result : Except Error (List SourceDocument)}
    (h : Outcome join dialect texts start (opened ++ [next]) result)
    (hexpand : expand join dialect texts next = .ok (source, found)) :
    Outcome join dialect texts start opened (result.map (source :: ·)) := by
  cases h with
  | @complete more sources hsearch hall =>
    rw [List.append_assoc] at hsearch
    exact .complete hsearch (.cons (by rw [OpensAs, mentionedBy_eq hexpand, hexpand]) hall)
  | @failed more waiting last e hsearch hall he =>
    rw [List.append_assoc] at hsearch
    exact .failed hsearch (List.forall_mem_cons.2 ⟨⟨_, hexpand⟩, hall⟩) he

end Outcome

/-- A run of the search from here on comes to the outcome of the search. -/
theorem Underway.outcome_run {start : Url} {opened queue : List Pending} {seen : List String}
    {library : Library} (h : Underway join dialect texts start opened queue seen rest)
    (hrest : library = .shelf rest) :
    Outcome join dialect texts start opened (Collection.run join dialect library seen queue) := by
  fun_induction Collection.run join dialect library seen queue generalizing opened rest with
  | case1 library seen =>
    have hsearch : Search join dialect texts start (opened ++ []) [] := by simpa using h.search
    exact .complete hsearch .nil
  | case2 library seen next waiting e hfetch =>
    subst hrest
    exact .failed_next h.search (h.expand_next_error hfetch)
  | case3 library seen next waiting source left hfetch e hfound =>
    subst hrest
    obtain ⟨-, hexpand⟩ := h.expand_next hfetch
    rw [hfound] at hexpand
    exact .failed_next h.search hexpand
  | case4 library seen next waiting source left hfetch found hfound fresh _ hrun
  | case5 library seen next waiting source left hfetch found hfound fresh _ hrun =>
    rename_i ih
    subst hrest
    obtain ⟨hleft, hexpand⟩ := h.expand_next hfetch
    rw [hfound] at hexpand
    rw [hrun] at ih
    exact (ih (h.step hexpand) hleft).before hexpand

/-! ## What is collected -/

/-- Everything that a search meets is reachable. -/
theorem Search.reachable {start : Url} {opened waiting : List Pending}
    (h : Search join dialect texts start opened waiting) :
    ∀ p ∈ opened ++ waiting, Reachable join dialect texts start.text p.url.text := by
  refine h.of_closed (P := fun p => Reachable join dialect texts start.text p.url.text) ?_ ?_
  · intro p hp
    rw [List.mem_singleton.1 hp]
    exact .start
  · intro p _ hp q hq
    exact hp.mentionedBy hq

/-- A search that is over has opened everything that is reachable. -/
theorem Search.mem_of_reachable {start : Url} {order : List Pending}
    (h : Search join dialect texts start order [])
    (hopen : ∀ p ∈ order, ∃ result, expand join dialect texts p = .ok result) {url : String}
    (hurl : Reachable join dialect texts start.text url) :
    url ∈ order.map fun p => p.url.text := by
  induction hurl with
  | start => simpa using h.root_mem List.mem_cons_self
  | @reference url location d target _ hd hlocation hjoin ih =>
    obtain ⟨p, hp, rfl⟩ := List.mem_map.1 ih
    obtain ⟨⟨source, found⟩, hexpand⟩ := hopen p hp
    obtain ⟨d', hd', rfl, hfound⟩ := expand_eq_ok.1 hexpand
    rw [hd] at hd'
    cases hd'
    obtain ⟨q, hq, hqjoin⟩ := SourceDocument.exists_found hfound hlocation
    have htarget : q.url = target := Except.ok.inj (hqjoin.symm.trans hjoin)
    rw [← mentionedBy_eq hexpand] at hq
    simpa [htarget] using h.next_mem hp hq

/-- What a collection is that succeeded. -/
structure Collected (join : Joining) (dialect : Xml.Dialect) (texts : OrderedMap String String)
    (start : Url) (sources : List SourceDocument) : Prop where
  /-- Each document is there once. -/
  nodup : (sources.map fun source => source.url.text).Nodup
  /-- The documents are those at reachable URLs. -/
  reachable : ∀ url, url ∈ sources.map (fun source => source.url.text) ↔
    Reachable join dialect texts start.text url
  head : sources.head?.map (fun source => source.url) = some start
  /-- The documents come in the only order that a search can have, and each is the reading of its
  own text with the bindings handed down by the first reference to it. -/
  order : ∃ order, (∀ opened, Search join dialect texts start opened [] ↔ opened = order) ∧
    List.Forall₂ (fun p source =>
      source.url = p.url ∧ documentAt dialect texts p.url.text = some source.document ∧
        source.names = p.namesIn source.document) order sources

/-- What a collection is that failed: the search came to a document that cannot be opened, after it
opened all those before it. -/
def Failed (join : Joining) (dialect : Xml.Dialect) (texts : OrderedMap String String)
    (start : Url) (e : Error) : Prop :=
  ∃ opened next waiting, Search join dialect texts start opened (next :: waiting) ∧
    (∀ p ∈ opened, ∃ result, expand join dialect texts p = .ok result) ∧
    expand join dialect texts next = .error e

theorem exists_expand {order : List Pending} {sources : List SourceDocument}
    (h : List.Forall₂ (OpensAs join dialect texts) order sources) :
    ∀ p ∈ order, ∃ result, expand join dialect texts p = .ok result := by
  intro p hp
  obtain ⟨source, -, hexpand⟩ := exists_mem_of_forall₂ h.flip hp
  exact ⟨_, hexpand⟩

theorem Search.collected {start : Url} {order : List Pending} {sources : List SourceDocument}
    (h : Search join dialect texts start order [])
    (hall : List.Forall₂ (OpensAs join dialect texts) order sources) :
    Collected join dialect texts start sources := by
  have hread : List.Forall₂ (fun p source =>
      source.url = p.url ∧ documentAt dialect texts p.url.text = some source.document ∧
        source.names = p.namesIn source.document) order sources := by
    refine hall.imp fun p source hexpand => ?_
    obtain ⟨d, hd, rfl, -⟩ := expand_eq_ok.1 hexpand
    exact ⟨rfl, hd, rfl⟩
  have hurls : sources.map (fun source => source.url.text) = order.map fun p => p.url.text :=
    map_eq_of_forall₂ (fun hp => by rw [hp.1]) hread
  constructor
  · rw [hurls]
    simpa using h.nodup
  · intro url
    rw [hurls]
    refine ⟨fun hurl => ?_, h.mem_of_reachable (exists_expand hall)⟩
    obtain ⟨p, hp, rfl⟩ := List.mem_map.1 hurl
    exact h.reachable p (by simpa using hp)
  · have hhead : order.head? = some ⟨start, .empty⟩ := by simpa using h.head?_eq
    cases hread with
    | nil => cases hhead
    | cons hp _ =>
      cases hhead
      simp [hp.1]
  · exact ⟨order, fun opened => ⟨fun hopened => hopened.opened_unique h, fun heq => heq ▸ h⟩, hread⟩

/-- Collecting from a shelf succeeds when everything reachable can be opened, and collects that;
otherwise it fails at the first document that cannot be opened. -/
theorem collectWith_shelf (join : Joining) (dialect : Xml.Dialect)
    (texts : OrderedMap String String) (start : Url) :
    ((∃ sources, collectWith join dialect (.shelf texts) start = .ok sources) ↔
      ∀ url, Reachable join dialect texts start.text url → Opens join dialect texts url) ∧
    (∀ sources, collectWith join dialect (.shelf texts) start = .ok sources →
      Collected join dialect texts start sources) ∧
    ∀ e, collectWith join dialect (.shelf texts) start = .error e →
      Failed join dialect texts start e := by
  have houtcome : Outcome join dialect texts start []
      (collectWith join dialect (.shelf texts) start) :=
    (Underway.atStart start).outcome_run rfl
  generalize collectWith join dialect (.shelf texts) start = result at houtcome ⊢
  cases houtcome with
  | complete hsearch hall =>
    have hopens : ∀ url, Reachable join dialect texts start.text url →
        Opens join dialect texts url := by
      intro url hurl
      obtain ⟨p, hp, rfl⟩ := List.mem_map.1 (hsearch.mem_of_reachable (exists_expand hall) hurl)
      exact exists_expand_iff.1 (exists_expand hall p hp)
    refine ⟨⟨fun _ => hopens, fun _ => ⟨_, rfl⟩⟩, ?_, ?_⟩
    · rintro _ ⟨⟩
      exact hsearch.collected hall
    · rintro _ ⟨⟩
  | @failed opened waiting next e hsearch hopen he =>
    have hnext : Reachable join dialect texts start.text next.url.text :=
      hsearch.reachable next (List.mem_append_right _ List.mem_cons_self)
    refine ⟨⟨?_, fun hopens => ?_⟩, ?_, ?_⟩
    · rintro ⟨_, ⟨⟩⟩
    · obtain ⟨result, hresult⟩ := exists_expand_iff.2 (hopens _ hnext)
      rw [he] at hresult
      cases hresult
    · rintro _ ⟨⟩
    · rintro _ ⟨⟩
      exact ⟨opened, next, waiting, hsearch, hopen, he⟩

end SoapKit.Wsdl
