import SoapKit.Proofs.Client.Mentions
import SoapKit.Proofs.Client.NameErrors

/-!
# Records called like common types

**Theorem (`compile_mentions`).** A client mentions types by themselves that are types of the
language, types of its own, and a few types and type parameters that everyone calls so
(`commonNames`). A record is called like one of the latter if and only if the words in the name of a
complex type come to that: only the client's own type is kept apart from records. Types of the
language have no namesakes among records.

A record whose identifier has letters and digits only is called exactly so (`eq_of_text_ofName`),
without a number. And of the records with a name the first one gets it without a number, as no name
is reserved but that of the client's type (`Completes.exists_layout`).
-/

namespace SoapKit.Client

open Naming
open Rust
open Wsdl (QName Definitions)

variable {s : Setting} {layouts : List Layout}

/-! ## Names of records -/

/-- A name whose identifier has letters and digits only is that identifier. -/
theorem eq_of_text_ofName {name word : String} (h : (Ident.ofName name).text = word)
    (hword : ∀ c ∈ word.toList, c.isAlphanum = true) : name = word := by
  have hmark : '_' ∉ word.toList := fun hmem => absurd (hword '_' hmem) (by decide)
  have hraw : '#' ∉ word.toList := fun hmem => absurd (hword '#' hmem) (by decide)
  have hname : (Ident.ofName name).name = word := by
    unfold Ident.text at h
    split at h
    · refine absurd ?_ hraw
      rw [← h, String.toList_append]
      exact List.mem_append_left _ (by decide)
    · exact h
  have hwhole : Ident.wordOf name = word := by
    rw [Ident.ofName_eq] at hname
    split at hname
    · refine absurd ?_ hmark
      rw [← hname, String.toList_append]
      exact List.mem_append_right _ (by decide)
    · exact hname
  have hlist : name.toList.map Ident.clean = word.toList := by
    rw [← hwhole, Ident.wordOf, String.toList_ofList] at hmark ⊢
    cases hcleaned : name.toList.map Ident.clean with
    | nil =>
      rw [hcleaned] at hmark
      exact absurd (List.mem_singleton.2 rfl) hmark
    | cons c rest =>
      rw [hcleaned] at hmark
      simp only at hmark ⊢
      split
      · next hdigit => exact absurd (by rw [if_pos hdigit]; exact List.mem_cons_self) hmark
      · rfl
  refine String.toList_inj.1 (Eq.trans ?_ hlist)
  refine ((List.map_congr_left fun c hc => ?_).trans (List.map_id' _)).symm
  by_contra hne
  have hcleaned : Ident.clean c = '_' := by
    unfold Ident.clean at hne ⊢
    split
    · next hc => exact absurd (if_pos hc) hne
    · rfl
  exact hmark (hlist ▸ List.mem_map.2 ⟨c, hc, hcleaned⟩)

theorem not_isLower_head_camelize (name : String) :
    ∀ c ∈ (camelize name).toList.head?, c.isLower = false := by
  rw [camelize, String.toList_ofList]
  induction name.toList with
  | nil =>
    intro c hc
    cases hc
  | cons d rest ih =>
    rw [camelizeFrom]
    split
    · exact ih
    · intro c hc
      cases hc
      exact Text.isLower_toUpper d

/-- A record whose type is called by letters and digits only is called so without a number. -/
theorem NamedBy.camelize_eq {layout : Layout} {name word : String} (h : NamedBy layout name)
    (hword : ∀ c ∈ word.toList, c.isAlphanum = true) (htext : layout.ident.text = word) :
    camelize layout.record.name.base = word := by
  rw [h.ident] at htext
  obtain rfl := eq_of_text_ofName htext hword
  rcases h.base with hbase | ⟨number, hbase⟩
  · exact hbase.symm
  · have hmark : '_' ∈ name.toList := by
      rw [hbase, toList_numbered]
      exact List.mem_append_right _ List.mem_cons_self
    exact absurd (hword '_' hmark) (by decide)

/-- What the words in the names of records come to is taken. -/
def BasesTaken (bench : Workbench) : Prop :=
  ∀ layout ∈ bench.layouts, camelize layout.record.name.base ∈ bench.typeNames.taken

theorem mem_taken_allocate (names : FreshNames) (base : String) :
    base ∈ (names.allocate base).2.taken := by
  rw [FreshNames.allocate, FreshNames.reserve, List.mem_append, List.mem_singleton]
  unfold FreshNames.choose
  split
  · next h => exact .inl (List.contains_iff_mem.1 h)
  · exact .inr rfl

theorem lasting_basesTaken : Lasting BasesTaken where
  aliases := fun _ h _ => h
  setFields := by
    intro bench h index fields layout hlayout
    obtain ⟨i, hi⟩ := List.mem_iff_getElem?.1 hlayout
    rw [Workbench.setFields, List.getElem?_modify, Option.map_eq_map,
      Option.map_eq_some_iff] at hi
    obtain ⟨old, hold, rfl⟩ := hi
    have htaken := h old (List.mem_of_getElem? hold)
    split <;> exact htaken
  register := by
    intro record bench kind bench' h heq
    unfold register at heq
    split at heq
    · split at heq
      · cases heq
        exact h
      · cases heq
    · simp only at heq
      split at heq
      · cases heq
      · cases heq
        refine List.forall_mem_append.2 ⟨fun layout hlayout => ?_, ?_⟩
        · exact List.mem_append_left _ (h layout hlayout)
        · exact List.forall_mem_singleton.2 (mem_taken_allocate _ _)

/-- The client's type is not called like anything that all clients mention. -/
theorem serviceIdent_not_mem (name : String) :
    (serviceIdent name).text ∉ commonNames ++ languageNames := by
  have hending : ∀ word ∈ commonNames ++ languageNames, ¬"Service".toList <:+ word.toList := by
    decide
  exact fun h => hending _ h (service_isSuffix name)

section Compiled

variable {plan : Plan} {service word : String}

theorem Completes.exists_layout (h : Completes s plan [(serviceIdent service).text] layouts)
    (hword : word ∈ commonNames) {layout : Layout} (hlayout : layout ∈ layouts)
    (hbase : camelize layout.record.name.base = word) :
    ∃ other ∈ layouts, other.ident.text = word := by
  obtain ⟨bench, rfl, ⟨names, htaken, -, hnamed⟩, hbases⟩ :=
    h.lasting ((lasting_named _).and lasting_basesTaken)
      ⟨named_start (List.nodup_singleton _) s.defs, fun _ h => nomatch h⟩
  have hmem : word ∈ [(serviceIdent service).text] ++ names :=
    htaken ▸ hbase ▸ hbases layout hlayout
  have hname : word ∈ names := by
    refine (List.mem_append.1 hmem).resolve_left fun hservice => ?_
    rw [List.mem_singleton] at hservice
    exact serviceIdent_not_mem service (hservice ▸ List.mem_append_left _ hword)
  obtain ⟨other, hother, hnamedBy⟩ :=
    exists_mem_of_forall₂ (List.forall₂_map_left_iff.1 hnamed) hname
  have hplain : ∀ word ∈ commonNames, (Ident.ofName word).text = word := by decide
  have hident : other.ident = Ident.ofName word := hnamedBy.ident
  exact ⟨other, hother, hident ▸ hplain word hword⟩

/-- A record is called like something common if and only if a complex type is. -/
theorem Completes.mem_idents_iff (h : Completes s plan [(serviceIdent service).text] layouts)
    (hword : word ∈ commonNames) :
    word ∈ ownNames (serviceIdent service).text layouts ↔
      ∃ layout ∈ layouts, camelize layout.record.name.base = word := by
  have hchars : ∀ word ∈ commonNames, word.toList.all Char.isAlphanum = true := by decide
  obtain ⟨names, -, hnamed⟩ := h.exists_names (List.nodup_singleton _)
  rw [ownNames, List.mem_cons]
  constructor
  · rintro (hservice | hmem)
    · rw [hservice] at hword
      exact (serviceIdent_not_mem service (List.mem_append_left _ hword)).elim
    · obtain ⟨layout, hlayout, htext⟩ := List.mem_map.1 hmem
      obtain ⟨name, -, hname⟩ := exists_mem_of_forall₂ hnamed.flip hlayout
      exact ⟨layout, hlayout, hname.camelize_eq (List.all_eq_true.1 (hchars word hword)) htext⟩
  · rintro ⟨layout, hlayout, hbase⟩
    exact .inr (List.mem_map.2 (h.exists_layout hword hlayout hbase))

/-- No record is called like a type of the language. -/
theorem Completes.not_mem_idents (h : Completes s plan [(serviceIdent service).text] layouts)
    (hword : word ∈ languageNames) : word ∉ ownNames (serviceIdent service).text layouts := by
  have hchars : ∀ word ∈ languageNames, word.toList.all Char.isAlphanum = true := by decide
  have hsmall : ∀ word ∈ languageNames, word ∈ Ident.forbidden ∨
      word.toList.head?.any Char.isLower = true := by decide
  obtain ⟨names, -, hnamed⟩ := h.exists_names (List.nodup_singleton _)
  rw [ownNames, List.mem_cons]
  rintro (hservice | hmem)
  · rw [hservice] at hword
    exact serviceIdent_not_mem service (List.mem_append_right _ hword)
  · obtain ⟨layout, hlayout, htext⟩ := List.mem_map.1 hmem
    obtain ⟨name, -, hname⟩ := exists_mem_of_forall₂ hnamed.flip hlayout
    rcases hsmall word hword with hforbidden | hlower
    · rw [← htext, hname.ident] at hforbidden
      exact Ident.text_ofName_not_mem name hforbidden
    · have hbase := hname.camelize_eq (List.all_eq_true.1 (hchars word hword)) htext
      obtain ⟨c, hc, hlower⟩ := Option.any_eq_true _ _ |>.1 hlower
      rw [← hbase] at hc
      rw [not_isLower_head_camelize _ c hc] at hlower
      cases hlower

end Compiled

/-- The types of a client mention common names, names of the language, and those of its own types.
Of the common names exactly those are names of records too that the words in the name of a complex
type come to, and no name of the language is. -/
theorem compile_mentions {defs : Definitions} {service : Option String} {name : QName}
    {items : List Item} (h : compile defs service name = .ok items) :
    ∃ plan layouts, Compiled defs service name items plan layouts ∧
      (∀ item ∈ items, Mentionable (items.filterMap Item.recordName?) item.mentions) ∧
      (∀ word ∈ commonNames, word ∈ items.filterMap Item.recordName? ↔
        ∃ layout ∈ layouts, camelize layout.record.name.base = word) ∧
      ∀ word ∈ languageNames, word ∉ items.filterMap Item.recordName? := by
  obtain ⟨binding, plan, bench, hbinding, hplan, hclient⟩ := compile_eq_ok h
  obtain ⟨layouts, hcompletes, hclosed, hwrites⟩ := writeClient_eq_ok hclient
  have hnames : items.filterMap Item.recordName? = ownNames (serviceIdent plan.name).text layouts :=
    hwrites.recordNames
  rw [hnames]
  exact ⟨plan, layouts, ⟨⟨binding, hbinding, hplan⟩, hcompletes, hwrites⟩,
    writeClient_mentions hcompletes hclosed hclient, fun _ => hcompletes.mem_idents_iff,
    fun _ => hcompletes.not_mem_idents⟩

/-- Nodes and links are called like nothing common, so that what their client mentions is not
captured. -/
theorem compile_mentions_of_linked : ∃ items plan layouts,
    Compiled linked none (linkedName "Soap") items plan layouts ∧
      (∀ item ∈ items, Mentionable (items.filterMap Item.recordName?) item.mentions) ∧
      ∀ word ∈ commonNames, word ∉ items.filterMap Item.recordName? := by
  have hnames : (compile linked none (linkedName "Soap")).toOption.map
      (List.filterMap Item.recordName?) = some ["SoapService", "Node", "Link"] := by
    decide +kernel
  obtain ⟨items, hitems, heq⟩ := Option.map_eq_some_iff.1 hnames
  obtain ⟨plan, layouts, hcompiled, hmentions, -, -⟩ :=
    compile_mentions (toOption_eq_some.1 hitems)
  exact ⟨items, plan, layouts, hcompiled, hmentions, by rw [heq]; decide⟩

/-- A record is called like the type of texts, which is the type of its own field. -/
theorem not_compile_mentions_of_text : ∃ items,
    compile (called "String") none (linkedName "Soap") = .ok items ∧
      "String" ∈ items.filterMap Item.recordName? ∧
      ∃ item ∈ items, item.recordName? = some "String" ∧
        item.mentions = ["Option", "String", "Option", "String"] := by
  have hitems : (compile (called "String") none (linkedName "Soap")).toOption.map (fun items =>
      items.any fun item => item.recordName? == some "String" &&
        item.mentions == ["Option", "String", "Option", "String"]) = some true := by
    decide +kernel
  obtain ⟨items, hitems, hany⟩ := Option.map_eq_some_iff.1 hitems
  obtain ⟨item, hitem, hname⟩ := List.any_eq_true.1 hany
  rw [Bool.and_eq_true, beq_iff_eq, beq_iff_eq] at hname
  exact ⟨items, toOption_eq_some.1 hitems, List.mem_filterMap.2 ⟨item, hitem, hname.1⟩, item,
    hitem, hname⟩

end SoapKit.Client
