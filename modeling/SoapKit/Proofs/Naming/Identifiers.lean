import SoapKit.Proofs.Except
import SoapKit.Proofs.Naming.Fresh
import SoapKit.Proofs.Naming.Words

/-!
# Identifiers in one scope

The members of a scope are called after names that were free, and these names become identifiers.
A name is made into a word first (`Ident.wordOf`), and words do not tell all names apart: a dot and
an underscore are the same in them, and so are a word that Rust forbids and that word with an
underscore behind it. Ordinary names, which are words already, stay apart (`Ident.ofName_inj`), and
numbers behind names change nothing about that (`isOrdinary_variant`).
-/

namespace SoapKit.Rust.Ident

variable {name other : String}

/-! ## Words -/

/-- The word that a name is made into: letters, digits and underscores, not beginning with a digit.
-/
def wordOf (name : String) : String :=
  String.ofList <| match name.toList.map clean with
    | [] => ['_']
    | c :: rest => if c.isDigit then '_' :: c :: rest else c :: rest

theorem ofName_eq (name : String) :
    ofName name =
      if forbidden.contains (wordOf name) then ⟨wordOf name ++ "_"⟩ else ⟨wordOf name⟩ := by
  unfold ofName wordOf
  cases name.toList.map clean <;> rfl

theorem clean_clean (c : Char) : clean (clean c) = clean c := by
  by_cases h : c.isAlphanum ∨ c = '_'
  · rw [Naming.clean_eq h, Naming.clean_eq h]
  · have hmark : clean c = '_' := if_neg h
    rw [hmark]
    rfl

/-- The characters of a word are those that stand in identifiers as they are. -/
theorem clean_of_mem_wordOf {c : Char} (h : c ∈ (wordOf name).toList) : clean c = c := by
  have hcleaned : ∀ d ∈ name.toList.map clean, clean d = d := by
    intro d hd
    obtain ⟨e, -, rfl⟩ := List.mem_map.1 hd
    exact clean_clean e
  rw [wordOf, String.toList_ofList] at h
  cases hlist : name.toList.map clean with
  | nil =>
    rw [hlist] at h
    rw [List.mem_singleton.1 h]
    rfl
  | cons d rest =>
    rw [hlist] at h hcleaned
    simp only at h
    split at h
    · rcases List.mem_cons.1 h with rfl | h
      · rfl
      · exact hcleaned c h
    · exact hcleaned c h

/-- The first character alone decides about a mark at the front, so that words go on as names do. -/
theorem wordOf_append (h : name ≠ "") (more : String) :
    wordOf (name ++ more) = wordOf name ++ String.ofList (more.toList.map clean) := by
  obtain ⟨c, rest, hlist⟩ : ∃ c rest, name.toList = c :: rest :=
    List.exists_cons_of_ne_nil (by simpa using h)
  apply String.toList_inj.1
  simp only [wordOf, String.toList_append, String.toList_ofList, hlist, List.map_cons,
    List.cons_append, List.map_append]
  split <;> rfl

theorem ne_empty_of_wordOf_eq (h : wordOf name = name) : name ≠ "" := by
  rintro rfl
  exact absurd h (by decide)

/-! ## Identifiers of names -/

theorem forbidden_marked : ∀ word ∈ forbidden, word ++ "_" ∉ forbidden := by decide

theorem name_ofName_not_mem (name : String) : (ofName name).name ∉ forbidden := by
  rw [ofName_eq]
  split
  · next h => exact forbidden_marked _ (List.contains_iff_mem.1 h)
  · next h => exact fun hmem => h (List.contains_iff_mem.2 hmem)

theorem clean_of_mem_ofName {c : Char} (h : c ∈ (ofName name).name.toList) : clean c = c := by
  rw [ofName_eq] at h
  split at h
  · rw [String.toList_append, List.mem_append] at h
    rcases h with h | h
    · exact clean_of_mem_wordOf h
    · rw [List.mem_singleton.1 h]
      rfl
  · exact clean_of_mem_wordOf h

/-- The mark of raw identifiers is no part of any identifier. -/
theorem raw_ne_ofName (word name : String) : "r#" ++ word ≠ (ofName name).name := by
  intro h
  have hmark : '#' ∈ (ofName name).name.toList := by
    rw [← h]
    simp
  exact absurd (clean_of_mem_ofName hmark) (by decide)

/-- Identifiers that are written alike are the same. -/
theorem ofName_eq_of_text (h : (ofName name).text = (ofName other).text) :
    ofName name = ofName other := by
  have hname : (ofName name).name = (ofName other).name := by
    unfold text at h
    split at h <;> split at h
    · exact String.append_right_inj _ |>.1 h
    · exact absurd h (raw_ne_ofName _ _)
    · exact absurd h.symm (raw_ne_ofName _ _)
    · exact h
  exact congrArg Ident.mk hname

/-- No identifier is written like a word that Rust forbids. -/
theorem text_ofName_not_mem (name : String) : (ofName name).text ∉ forbidden := by
  unfold text
  split
  · intro h
    have hmark : ∀ word ∈ forbidden, '#' ∉ word.toList := by decide
    exact hmark _ h (by simp)
  · exact name_ofName_not_mem name

/-! ## Ordinary names -/

/-- A name is a word, and not one that Rust forbids with an underscore behind it. -/
def isOrdinary (name : String) : Bool :=
  wordOf name == name && !(forbidden.any fun word => name == word ++ "_")

theorem isOrdinary_iff :
    isOrdinary name = true ↔ wordOf name = name ∧ ∀ word ∈ forbidden, name ≠ word ++ "_" := by
  simp [isOrdinary]

/-- Ordinary names stay apart as identifiers. -/
theorem ofName_inj (h : isOrdinary name = true) (hother : isOrdinary other = true)
    (heq : ofName name = ofName other) : name = other := by
  obtain ⟨hword, hmarked⟩ := isOrdinary_iff.1 h
  obtain ⟨hword', hmarked'⟩ := isOrdinary_iff.1 hother
  rw [ofName_eq, ofName_eq, hword, hword'] at heq
  split at heq <;> split at heq <;> rw [Ident.mk.injEq] at heq
  · exact String.append_left_inj _ |>.1 heq
  · next hforbidden _ =>
    exact absurd heq.symm (hmarked' _ (List.contains_iff_mem.1 hforbidden))
  · next hforbidden =>
    exact absurd heq (hmarked _ (List.contains_iff_mem.1 hforbidden))
  · exact heq

end SoapKit.Rust.Ident

namespace SoapKit.Naming

open Rust (Ident)

variable {base name : String} {reserved bases names idents : List String}

/-! ## Names that are handed out -/

/-- A name is a base, maybe with a number. -/
inductive Variant (base : String) : String → Prop
  | plain : Variant base base
  | numbered (number : Nat) : Variant base (FreshNames.numbered base number)

theorem Variant.choose (names : FreshNames) (base : String) : Variant base (names.choose base) := by
  rcases names.choose_eq base with h | ⟨number, h⟩
  · rw [h]
    exact .plain
  · rw [h]
    exact .numbered number

theorem numbered_eq_append (base : String) (number : Nat) :
    FreshNames.numbered base number = base ++ ("_" ++ toString number) :=
  String.append_assoc ..

theorem map_clean_number (number : Nat) :
    ("_" ++ toString number).toList.map Ident.clean = ("_" ++ toString number).toList := by
  refine (List.map_congr_left fun c hc => ?_).trans (List.map_id' _)
  rw [String.toList_append, List.mem_append] at hc
  rcases hc with hc | hc
  · rw [List.mem_singleton.1 hc]
    rfl
  · rw [Nat.toString_eq_ofList_toDigits, String.toList_ofList] at hc
    exact clean_eq (.inl (Text.isAlphanum_of_isDigit (isDigit_of_mem_toDigits hc)))

/-- A name that ends in a number does not end in an underscore. -/
theorem numbered_ne_marked (base word : String) (number : Nat) :
    FreshNames.numbered base number ≠ word ++ "_" := by
  intro h
  have hne : Nat.toDigits 10 number ≠ [] := Nat.toDigits_ne_nil
  have hlast : (FreshNames.numbered base number).toList.getLast? = some '_' := by
    rw [h, String.toList_append]
    exact List.getLast?_concat
  rw [toList_numbered, List.getLast?_append_of_ne_nil _ (List.cons_ne_nil _ _),
    List.getLast?_cons_of_ne_nil hne] at hlast
  exact absurd (isDigit_of_mem_toDigits (List.mem_of_getLast? hlast)) (by decide)

/-- A number behind an ordinary name leaves it ordinary. -/
theorem isOrdinary_variant (h : Ident.isOrdinary base = true) (hname : Variant base name) :
    Ident.isOrdinary name = true := by
  cases hname with
  | plain => exact h
  | numbered number =>
    obtain ⟨hword, -⟩ := Ident.isOrdinary_iff.1 h
    refine Ident.isOrdinary_iff.2 ⟨?_, fun word _ => numbered_ne_marked base word number⟩
    rw [numbered_eq_append, Ident.wordOf_append (Ident.ne_empty_of_wordOf_eq hword), hword,
      map_clean_number, String.ofList_toList]

namespace FreshNames

/-- The names that are handed out for several bases, one after the other. -/
def allocateAll : FreshNames → List String → List String × FreshNames
  | names, [] => ([], names)
  | names, base :: rest =>
    let (name, names) := names.allocate base
    let (others, names) := names.allocateAll rest
    (name :: others, names)

theorem allocateAll_append (names : FreshNames) (bases others : List String) :
    names.allocateAll (bases ++ others) =
      ((names.allocateAll bases).1 ++ ((names.allocateAll bases).2.allocateAll others).1,
        ((names.allocateAll bases).2.allocateAll others).2) := by
  induction bases generalizing names with
  | nil => rfl
  | cons base rest ih => simp [allocateAll, ih]

theorem taken_allocateAll (names : FreshNames) (bases : List String) :
    (names.allocateAll bases).2.taken = names.taken ++ (names.allocateAll bases).1 := by
  induction bases generalizing names with
  | nil => exact (List.append_nil _).symm
  | cons base rest ih =>
    rw [allocateAll, ih, allocate, reserve, List.append_assoc, List.singleton_append]

theorem nodup_allocateAll (names : FreshNames) (h : names.taken.Nodup) (bases : List String) :
    (names.allocateAll bases).2.taken.Nodup := by
  induction bases generalizing names with
  | nil => exact h
  | cons base rest ih => exact ih _ (nodup_allocate h base)

theorem variants_allocateAll (names : FreshNames) (bases : List String) :
    List.Forall₂ Variant bases (names.allocateAll bases).1 := by
  induction bases generalizing names with
  | nil => exact .nil
  | cons base rest ih => exact .cons (.choose names base) (ih _)

end FreshNames

/-! ## Members of a scope -/

/-- The members of a scope are called after names that were handed out for their bases one after the
other. Some names are reserved for others. -/
structure HandedOut (reserved bases names idents : List String) : Prop where
  variants : List.Forall₂ Variant bases names
  nodup : (reserved ++ names).Nodup
  idents : idents = names.map fun name => (Ident.ofName name).text

theorem handedOut_allocateAll (h : reserved.Nodup) (bases : List String) :
    HandedOut reserved bases ((FreshNames.mk reserved).allocateAll bases).1
      (((FreshNames.mk reserved).allocateAll bases).1.map fun name => (Ident.ofName name).text)
    where
  variants := FreshNames.variants_allocateAll ..
  nodup := by
    rw [← FreshNames.taken_allocateAll ⟨reserved⟩ bases]
    exact FreshNames.nodup_allocateAll ⟨reserved⟩ h bases
  idents := rfl

namespace HandedOut

/-- Members with ordinary names have different identifiers. -/
theorem nodup_filter (h : HandedOut reserved bases names idents) :
    ((names.filter Ident.isOrdinary).map fun name => (Ident.ofName name).text).Nodup := by
  have hnames : (names.filter Ident.isOrdinary).Nodup := (List.nodup_append.1 h.nodup).2.1.filter _
  refine hnames.map_on fun name hname other hother heq => ?_
  exact Ident.ofName_inj (List.mem_filter.1 hname).2 (List.mem_filter.1 hother).2
    (Ident.ofName_eq_of_text heq)

/-- Where all bases are ordinary names, all members have different identifiers. -/
theorem nodup_idents (h : HandedOut reserved bases names idents)
    (hbases : ∀ base ∈ bases, Ident.isOrdinary base = true) : idents.Nodup := by
  have hnames : names.filter Ident.isOrdinary = names := by
    refine List.filter_eq_self.2 fun name hname => ?_
    obtain ⟨base, hbase, hvariant⟩ := exists_mem_of_forall₂ h.variants hname
    exact isOrdinary_variant (hbases base hbase) hvariant
  have hnodup := h.nodup_filter
  rwa [hnames, ← h.idents] at hnodup

/-- No member is called like a word that Rust forbids. -/
theorem not_mem_forbidden (h : HandedOut reserved bases names idents) {ident : String}
    (hident : ident ∈ idents) : ident ∉ Ident.forbidden := by
  rw [h.idents] at hident
  obtain ⟨name, -, rfl⟩ := List.mem_map.1 hident
  exact Ident.text_ofName_not_mem name

end HandedOut

end SoapKit.Naming
