import SoapKit.Proofs.Xml.Building
import SoapKit.Proofs.Xml.Strict.Canonical

/-!
# What the strict reader makes

A document that the strict reader makes has canonical tags, and its character data may stand in a
document (`Document.canonical_of_read_strict`).

All of this is kept by every step of the reader (`Reading.IsSound.step`): an opening adds a
canonical tag and what is known inside of it, a closing goes back to what was known around it, and
character data is added to character data.
-/

namespace SoapKit.Xml

/-! ## Character data -/

/-- The character data of an entry may stand in a document. -/
def Entry.IsStrict (entry : Entry) : Prop :=
  ∀ data, entry.content = .text data → ∀ c ∈ data.toList, Strict.isXmlChar c = true

namespace Assembly

theorem forall_mem_modify {α : Type} {p : α → Prop} {f : α → α} {xs : List α}
    (hf : ∀ x ∈ xs, p x → p (f x)) (h : ∀ x ∈ xs, p x) (index : Nat) :
    ∀ x ∈ xs.modify index f, p x := by
  induction xs generalizing index with
  | nil => simp
  | cons x rest ih =>
    rw [List.forall_mem_cons] at h hf
    cases index with
    | zero => exact List.forall_mem_cons.2 ⟨hf.1 h.1, h.2⟩
    | succ index => exact List.forall_mem_cons.2 ⟨h.1, ih hf.2 h.2 index⟩

variable {a a' : Assembly}

theorem forall_mem_append (h : ∀ entry ∈ a.entries.toList, entry.IsStrict) {content : Content}
    (hcontent : ∀ data, content = .text data → ∀ c ∈ data.toList, Strict.isXmlChar c = true) :
    ∀ entry ∈ (a.append content).entries.toList, entry.IsStrict := by
  intro entry hentry
  rw [append, Array.toList_push, List.mem_append, List.mem_singleton, Array.toList_modify] at hentry
  rcases hentry with hentry | rfl
  · refine forall_mem_modify (fun x _ hx => ?_) h _ entry hentry
    exact hx
  · exact hcontent

theorem openTag_eq_ok {tag : Tag} (h : a.openTag tag = .ok a') :
    a'.entries = (a.append (.element tag.sorted)).entries ∧
      a'.scopes = tag.sorted.declarations :: a.scopes := by
  unfold openTag at h
  simp only at h
  split at h
  · cases h
  · cases h
    exact ⟨rfl, rfl⟩

theorem close_eq_ok {written : String} (h : a.close written = .ok a') :
    a'.entries = a.entries ∧ a'.scopes = a.scopes.tail := by
  unfold close at h
  split at h
  · cases h
  · cases h
    exact ⟨rfl, rfl⟩

theorem finish_eq_ok {d : Document} (h : a.finish = .ok d) : d.entries = a.entries := by
  unfold finish at h
  split at h
  · cases h
  · split at h
    · cases h
      rfl
    · cases h

/-- Character data is added to character data. -/
theorem addText_eq_ok {data : String} (hdata : ∀ c ∈ data.toList, Strict.isXmlChar c = true)
    (hentries : ∀ entry ∈ a.entries.toList, entry.IsStrict) (h : a.addText data = .ok a') :
    (∀ entry ∈ a'.entries.toList, entry.IsStrict) ∧ a'.scopes = a.scopes := by
  unfold addText at h
  split at h
  · cases h
    exact ⟨hentries, rfl⟩
  · split at h
    · cases h
    · split at h
      · rename_i last before hlast
        cases h
        obtain ⟨parent, -, hlast⟩ := Option.bind_eq_some_iff.1 hlast
        obtain ⟨place, -, hlast⟩ := Option.bind_eq_some_iff.1 hlast
        obtain ⟨entry, hentry, hlast⟩ := Option.bind_eq_some_iff.1 hlast
        split at hlast
        · rename_i text hcontent
          cases hlast
          have hmem : entry ∈ a.entries.toList := by
            rw [← Array.getElem?_toList] at hentry
            exact List.mem_of_getElem? hentry
          refine ⟨?_, rfl⟩
          rw [Array.toList_modify]
          refine forall_mem_modify (fun _ _ _ => ?_) hentries _
          rintro _ ⟨⟩ c hc
          rw [String.toList_append, List.mem_append] at hc
          exact hc.elim (hentries entry hmem before hcontent c) (hdata c)
        · cases hlast
      · cases h
        refine ⟨forall_mem_append hentries ?_, rfl⟩
        rintro _ ⟨⟩
        exact hdata

end Assembly

/-! ## What the strict reader makes -/

/-- What the strict reader knows inside of every open element, and the declarations that are written
on these. -/
inductive KnowsAll : List (Name × List Declaration) → List (List Declaration) → Prop
  | top : KnowsAll [] []
  | inner {opened : List (Name × List Declaration)} {scopes : List (List Declaration)} {name : Name}
      {known own : List Declaration} : KnowsAll opened scopes →
      Knows known (own ++ scopes.flatten) →
      KnowsAll ((name, known) :: opened) (own :: scopes)

theorem KnowsAll.knows {opened : List (Name × List Declaration)} {scopes : List (List Declaration)}
    (h : KnowsAll opened scopes) : Knows ((opened.head?.map (·.2)).getD []) scopes.flatten := by
  cases h with
  | top => exact knows_nil
  | inner _ hknows => exact hknows

namespace Strict

/-- All that is said of the documents that the strict reader makes, while it makes one. -/
structure Reading.IsSound (r : Reading) : Prop where
  tidy : r.assembly.Tidy Tag.IsCanonical
  knows : KnowsAll r.opened r.assembly.scopes
  chars : ∀ entry ∈ r.assembly.entries.toList, entry.IsStrict

namespace Reading.IsSound

variable {r r' : Reading}

theorem start : (⟨Assembly.start, []⟩ : Reading).IsSound where
  tidy := Assembly.tidy_start
  knows := .top
  chars := by
    intro entry hentry data hdata
    obtain rfl : entry = ⟨none, [], .document⟩ := List.mem_singleton.1 hentry
    cases hdata

theorem openElement (h : r.IsSound) {name : Name} {attributes : List (Name × String)}
    {empty : Bool} (hstrict : (Event.opening name attributes empty).IsStrict)
    (hproper : (Event.opening name attributes empty).DeclaresProperly) {tag : Tag}
    {known : List Declaration}
    (hresolve : resolveTag ((r.opened.head?.map (·.2)).getD []) name attributes =
      some (tag, known)) {a : Assembly} (ha : r.assembly.openTag tag = .ok a) :
    (⟨a, (name, known) :: r.opened⟩ : Reading).IsSound := by
  obtain ⟨hknown, hcanonical⟩ := h.knows.knows.enter hstrict hproper hresolve
  obtain ⟨hentries, hscopes⟩ := Assembly.openTag_eq_ok ha
  refine ⟨h.tidy.openTag hcanonical ha, ?_, ?_⟩
  · show KnowsAll _ a.scopes
    rw [hscopes]
    exact .inner h.knows hknown
  · show ∀ entry ∈ a.entries.toList, _
    rw [hentries]
    refine Assembly.forall_mem_append h.chars ?_
    rintro _ ⟨⟩

theorem close {a b : Assembly} {level : Name × List Declaration}
    {opened : List (Name × List Declaration)} (h : (⟨a, level :: opened⟩ : Reading).IsSound)
    {written : String} (hb : a.close written = .ok b) : (⟨b, opened⟩ : Reading).IsSound := by
  obtain ⟨hentries, hscopes⟩ := Assembly.close_eq_ok hb
  obtain ⟨htidy, hknows, hchars⟩ := h
  refine ⟨htidy.close hb, ?_, ?_⟩
  · show KnowsAll _ b.scopes
    rw [hscopes]
    generalize a.scopes = scopes at hknows
    cases hknows with
    | inner hopened _ => exact hopened
  · show ∀ entry ∈ b.entries.toList, _
    rwa [hentries]

/-- Every step of the strict reader keeps what is said of its documents. -/
theorem step (h : r.IsSound) {event : Event} (hstrict : event.IsStrict)
    (hproper : event.DeclaresProperly) (hstep : r.step event = .ok r') : r'.IsSound := by
  cases event with
  | separator =>
    cases hstep
    exact h
  | opening name attributes empty =>
    rw [Reading.step] at hstep
    split at hstep
    · cases hstep
    · rename_i tag known hresolve
      obtain ⟨a, ha, hstep⟩ := bind_eq_ok.1 hstep
      have hopened := h.openElement hstrict hproper hresolve ha
      cases empty with
      | true =>
        obtain ⟨b, hb, hstep⟩ := bind_eq_ok.1 hstep
        cases hstep
        exact hopened.close hb
      | false =>
        cases hstep
        exact hopened
  | closing name =>
    obtain ⟨a, opened⟩ := r
    cases opened with
    | nil => cases hstep
    | cons level opened =>
      rw [Reading.step] at hstep
      simp only at hstep
      split at hstep
      · obtain ⟨b, hb, hstep⟩ := bind_eq_ok.1 hstep
        cases hstep
        exact h.close hb
      · cases hstep
  | data text =>
    obtain ⟨a, ha, hstep⟩ := bind_eq_ok.1 hstep
    cases hstep
    obtain ⟨hentries, hscopes⟩ := Assembly.addText_eq_ok
      (by rw [String.toList_ofList]; exact hstrict) h.chars ha
    refine ⟨h.tidy.addText ha, ?_, hentries⟩
    show KnowsAll _ a.scopes
    rw [hscopes]
    exact h.knows

end Reading.IsSound

theorem Event.declaresProperly_data (text : List Char) : (Event.data text).DeclaresProperly where
  once := by simp [attributes]
  bound := by simp [attributes]

end Strict

/-- A document that the strict reader makes has one element, in which all tags are canonical and all
character data may stand in a document. -/
theorem Document.canonical_of_read_strict {text : String} {d : Document}
    {events : List Strict.Event} (hevents : Strict.events text.toList = some events)
    (hproper : ∀ event ∈ events, event.DeclaresProperly)
    (h : Document.read .strict text = .ok d) :
    ∃ tag children, d.Shows [.element tag children] ∧
      (Tree.element tag children).Tidy Tag.IsCanonical [] ∧
      ∀ entry ∈ d.entries.toList, entry.IsStrict := by
  unfold Document.read at h
  split at h
  · cases h
  · rw [Strict.read, show (Strict.tokens text.toList).bind (·.mapM Strict.Token.event) =
      some events from hevents] at h
    obtain ⟨r, hr, h⟩ := bind_eq_ok.1 h
    have hjoined : ∀ event ∈ Strict.joinData events,
        event.IsStrict ∧ event.DeclaresProperly := by
      refine Strict.forall_joinData (fun a b ha hb => ?_) fun event hevent =>
        ⟨Strict.events_isStrict hevents event hevent, hproper event hevent⟩
      exact ⟨List.forall_mem_append.2 ⟨ha.1, hb.1⟩, Strict.Event.declaresProperly_data _⟩
    have hsound : r.IsSound := foldlM_keeps_of_forall (fun event hevent _ _ hs hstep =>
      hs.step (hjoined event hevent).1 (hjoined event hevent).2 hstep) .start hr
    obtain ⟨tag, children, hd, -, htidy⟩ := hsound.tidy.finish h
    refine ⟨tag, children, hd, htidy, ?_⟩
    rw [Assembly.finish_eq_ok h]
    exact hsound.chars

end SoapKit.Xml
