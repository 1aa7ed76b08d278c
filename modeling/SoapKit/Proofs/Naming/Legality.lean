import SoapKit.Proofs.Naming.Identifiers

/-!
# Legal identifiers

Every name is made an identifier that the language takes, whatever characters are in it
(`Ident.isIdentifier_ofName`). A name behind a beginning is written as it is; in small letters it
has characters of names only if the name has, apart from the marks between its words
(`all_isNamePart_underscore`, `all_isLowerable_camelizeFrom`), and a number behind it changes
nothing.
-/

namespace SoapKit.Rust

/-- A text begins with a letter or an underscore and goes on with characters of names. -/
def isWord (text : String) : Bool :=
  match text.toList with
  | [] => false
  | c :: rest => (c.isAlpha || c == '_') && rest.all Text.isNamePart

/-- A text can stand as an identifier: a word that the language does not use itself, or one that it
uses with the mark of raw identifiers. -/
def isIdentifier (text : String) : Bool :=
  (isWord text && !Ident.keywords.contains text && !Ident.forbidden.contains text) ||
    Ident.keywords.any fun word => text == "r#" ++ word

section Words

variable {text : String}

theorem isWord_iff : isWord text = true ↔ ∃ c rest, text.toList = c :: rest ∧
    (c.isAlpha = true ∨ c = '_') ∧ ∀ d ∈ rest, Text.isNamePart d = true := by
  unfold isWord
  cases text.toList with
  | nil => simp
  | cons c rest => simp [and_assoc]

theorem isIdentifier_of_word (hword : isWord text = true) (hkeyword : text ∉ Ident.keywords)
    (hforbidden : text ∉ Ident.forbidden) : isIdentifier text = true := by
  simp [isIdentifier, hword, hkeyword, hforbidden]

/-- An identifier is written legally if its name is a word that the language does not forbid: where
the language uses the name, it is marked. -/
theorem Ident.isIdentifier_text {ident : Ident} (hword : isWord ident.name = true)
    (hforbidden : ident.name ∉ forbidden) : isIdentifier ident.text = true := by
  unfold Ident.text
  split
  · next hkeyword =>
    rw [isIdentifier, Bool.or_eq_true, List.any_eq_true]
    exact .inr ⟨ident.name, List.contains_iff_mem.1 hkeyword, beq_self_eq_true _⟩
  · next hkeyword =>
    exact isIdentifier_of_word hword (fun h => hkeyword (List.contains_iff_mem.2 h)) hforbidden

/-- What begins with an underscore is legal as soon as anything follows. -/
theorem isIdentifier_marked (hne : text ≠ "")
    (hparts : ∀ c ∈ text.toList, Text.isNamePart c = true) :
    isIdentifier ("_" ++ text) = true := by
  have hlist : ("_" ++ text).toList = '_' :: text.toList := String.toList_append
  refine isIdentifier_of_word (isWord_iff.2 ⟨'_', _, hlist, .inr rfl, hparts⟩) ?_ ?_
  · have hinitial : ∀ word ∈ Ident.keywords, word.toList.head? ≠ some '_' := by decide
    exact fun h => hinitial _ h (by rw [hlist, List.head?_cons])
  · have hmarked : ∀ word ∈ Ident.forbidden,
        word.toList.head? = some '_' → word.toList = ['_'] := by
      decide
    intro h
    have hsingle := hmarked _ h (by rw [hlist, List.head?_cons])
    rw [hlist, List.cons.injEq] at hsingle
    exact hne (String.toList_inj.1 hsingle.2)

end Words

/-! ## Characters -/

section Characters

variable {c : Char}

theorem isNamePart_of_isAlphanum (h : c.isAlphanum = true) : Text.isNamePart c = true := by
  have hsmall : c.toNat < 0x80 := Text.toNat_lt_of_isAlphanum h
  rw [Text.isNamePart, if_pos hsmall, h, Bool.true_or]

theorem isNamePart_of_clean (h : Ident.clean c = c) : Text.isNamePart c = true := by
  by_cases hc : c.isAlphanum = true ∨ c = '_'
  · rcases hc with hc | rfl
    · exact isNamePart_of_isAlphanum hc
    · decide
  · rw [Ident.clean, if_neg hc] at h
    rw [← h]
    decide

theorem isAlpha_of_clean (h : Ident.clean c = c) (hdigit : c.isDigit = false) :
    c.isAlpha = true ∨ c = '_' := by
  by_cases hc : c.isAlphanum = true ∨ c = '_'
  · rcases hc with hc | rfl
    · rw [Text.isAlphanum_iff, hdigit] at hc
      exact .inl (hc.resolve_right Bool.false_ne_true)
    · exact .inr rfl
  · rw [Ident.clean, if_neg hc] at h
    exact .inr h.symm

theorem isNamePart_of_isAlpha (h : c.isAlpha = true) : Text.isNamePart c = true :=
  isNamePart_of_isAlphanum (Text.isAlphanum_iff.2 (.inl h))

theorem isNamePart_toLower (c : Char) : Text.isNamePart c.toLower = Text.isNamePart c := by
  by_cases hupper : c.isUpper = true
  · rw [isNamePart_of_isAlpha (Text.isAlpha_toLower hupper),
      isNamePart_of_isAlpha (Text.isAlpha_iff.2 (.inl hupper))]
  · rw [Text.toLower_of_not_isUpper hupper]

end Characters

namespace Ident

variable {name : String}

theorem exists_wordOf (name : String) : ∃ c rest, (wordOf name).toList = c :: rest ∧
    c.isDigit = false := by
  rw [wordOf, String.toList_ofList]
  cases name.toList.map clean with
  | nil => exact ⟨'_', [], rfl, rfl⟩
  | cons c rest =>
    by_cases hdigit : c.isDigit = true
    · exact ⟨'_', c :: rest, by simp [hdigit], rfl⟩
    · exact ⟨c, rest, by simp [hdigit], by simpa using hdigit⟩

theorem isWord_wordOf (name : String) : isWord (wordOf name) = true := by
  obtain ⟨c, rest, hlist, hdigit⟩ := exists_wordOf name
  have hclean : ∀ d ∈ c :: rest, clean d = d := fun d hd => clean_of_mem_wordOf (hlist ▸ hd)
  rw [List.forall_mem_cons] at hclean
  exact isWord_iff.2 ⟨c, rest, hlist, isAlpha_of_clean hclean.1 hdigit,
    fun d hd => isNamePart_of_clean (hclean.2 d hd)⟩

theorem isWord_ofName (name : String) : isWord (ofName name).name = true := by
  rw [ofName_eq]
  split
  · next h =>
    have hmarked : ∀ word ∈ forbidden, isWord (word ++ "_") = true := by decide
    exact hmarked _ (List.contains_iff_mem.1 h)
  · exact isWord_wordOf name

/-- Whatever a name is, the identifier for it is legal. -/
theorem isIdentifier_ofName (name : String) : isIdentifier (ofName name).text = true :=
  isIdentifier_text (isWord_ofName name) (name_ofName_not_mem name)

/-- No word of the language begins as the names of functions do. -/
theorem isIdentifier_withLead {ident : Ident} (h : withLead? "build_" name = some ident) :
    isIdentifier ident.text = true := by
  unfold withLead? at h
  split at h
  · next hparts =>
    cases h
    rw [List.all_eq_true] at hparts
    have hlist : ("build_" ++ name).toList = 'b' :: ("uild_".toList ++ name.toList) :=
      String.toList_append
    have hlead : ∀ word ∈ forbidden, word.toList.head? ≠ some 'b' := by decide
    refine isIdentifier_text (isWord_iff.2 ⟨'b', _, hlist, .inl (by decide), ?_⟩) fun hmem => ?_
    · have huild : "uild_".toList.all Text.isNamePart = true := by decide
      exact List.forall_mem_append.2 ⟨List.all_eq_true.1 huild, hparts⟩
    · exact hlead _ hmem (by rw [hlist, List.head?_cons])
  · cases h

end Ident

end SoapKit.Rust

namespace SoapKit.Naming

open Rust

/-! ## Names in small letters -/

/-- A character that is one of names when it is written in small letters. -/
def isLowerable (c : Char) : Bool :=
  c == '-' || Text.isNamePart c

theorem isLowerable_toUpper (c : Char) : isLowerable c.toUpper = isLowerable c := by
  by_cases hlower : c.isLower = true
  · rw [isLowerable, isLowerable, isNamePart_of_isAlpha (Text.isAlpha_iff.2 (.inr hlower)),
      isNamePart_of_isAlpha (Text.isAlpha_iff.2 (.inl (Text.isUpper_toUpper hlower)))]
    rw [Bool.or_true, Bool.or_true]
  · rw [Text.toUpper_of_not_isLower hlower]

theorem all_isNamePart_underscoreFrom (previous : Option Char) (name : List Char) :
    (underscoreFrom previous name).all Text.isNamePart = name.all isLowerable := by
  induction name generalizing previous with
  | nil => rfl
  | cons c rest ih =>
    have hwritten : Text.isNamePart (if c = '-' then '_' else c.toLower) = isLowerable c := by
      split
      · next h =>
        rw [h]
        rfl
      · next h => rw [isNamePart_toLower, isLowerable, beq_false_of_ne h, Bool.false_or]
    have hmark : Text.isNamePart '_' = true := by decide
    rw [underscoreFrom, List.all_cons]
    split <;> simp [hwritten, hmark, ih]

theorem all_isNamePart_underscore (name : String) :
    (underscore name).toList.all Text.isNamePart = name.toList.all isLowerable := by
  rw [underscore, String.toList_ofList, all_isNamePart_underscoreFrom]

/-- A name has characters of names only, apart from the marks between its words. -/
def isWritable (name : String) : Bool :=
  name.toList.all fun c => separatesWords c || Text.isNamePart c

theorem all_isLowerable_camelizeFrom (atStart : Bool) (name : List Char) :
    (camelizeFrom atStart name).all isLowerable =
      name.all fun c => separatesWords c || Text.isNamePart c := by
  induction name generalizing atStart with
  | nil => rfl
  | cons c rest ih =>
    rw [camelizeFrom, List.all_cons]
    split
    · next hseparates => rw [ih, hseparates, Bool.true_or, Bool.true_and]
    · next hseparates =>
      have hdash : (c == '-') = false := by
        rw [beq_eq_false_iff_ne]
        rintro rfl
        exact hseparates rfl
      have hfirst : isLowerable (if atStart then c.toUpper else c) = Text.isNamePart c := by
        rw [apply_ite isLowerable, isLowerable_toUpper, ite_self, isLowerable, hdash,
          Bool.false_or]
      rw [List.all_cons, hfirst, ih, Bool.eq_false_iff.2 hseparates, Bool.false_or]

theorem all_variant {p : Char → Bool} (hmark : p '_' = true)
    (hdigit : ∀ c : Char, c.isDigit = true → p c = true) {base name : String}
    (h : Variant base name) : name.toList.all p = base.toList.all p := by
  cases h with
  | plain => rfl
  | numbered number =>
    have hdigits : (Nat.toDigits 10 number).all p = true :=
      List.all_eq_true.2 fun c hc => hdigit c (isDigit_of_mem_toDigits hc)
    rw [toList_numbered, List.all_append, List.all_cons, hdigits, hmark, Bool.and_true,
      Bool.and_true]

theorem isNamePart_of_isDigit {c : Char} (h : c.isDigit = true) : Text.isNamePart c = true :=
  isNamePart_of_isAlphanum (Text.isAlphanum_of_isDigit h)

/-- A function can be called after a record if and only if the name of the record is writable. A
number changes nothing about that. -/
theorem isSome_withLead_iff {base name : String} (lead : String)
    (h : Variant (camelize base) name) :
    (Ident.withLead? lead (underscore name)).isSome = isWritable base := by
  have hdigit : ∀ c : Char, c.isDigit = true → isLowerable c = true := fun c hc => by
    rw [isLowerable, isNamePart_of_isDigit hc, Bool.or_true]
  have hparts : (underscore name).toList.all Text.isNamePart = isWritable base := by
    rw [all_isNamePart_underscore, all_variant (by decide) hdigit h, camelize,
      String.toList_ofList, all_isLowerable_camelizeFrom, isWritable]
  rw [Ident.withLead?, hparts]
  cases isWritable base <;> rfl

/-! ## Marked names -/

theorem underscore_ne_empty {name : String} (h : name ≠ "") : underscore name ≠ "" := by
  obtain ⟨c, rest, hlist⟩ := List.exists_cons_of_ne_nil (mt String.toList_eq_nil_iff.1 h)
  intro hempty
  have hnil := congrArg String.toList hempty
  rw [underscore, String.toList_ofList, hlist, underscoreFrom] at hnil
  split at hnil <;> cases hnil

theorem Variant.ne_empty {base name : String} (h : Variant base name) (hbase : base ≠ "") :
    name ≠ "" := by
  cases h with
  | plain => exact hbase
  | numbered number =>
    intro hempty
    have hnil := congrArg String.toList hempty
    rw [toList_numbered] at hnil
    exact List.append_ne_nil_of_right_ne_nil _ (List.cons_ne_nil _ _) hnil

/-- The name of an identifier in small letters is legal with an underscore before it, and so it is
with a number. -/
theorem isIdentifier_marked_variant {name written : String}
    (h : Variant (underscore (Ident.ofName name).name) written) :
    isIdentifier ("_" ++ written) = true := by
  refine isIdentifier_marked (h.ne_empty (underscore_ne_empty ?_)) ?_
  · intro hempty
    have hword := Ident.isWord_ofName name
    rw [hempty] at hword
    exact absurd hword (by decide)
  · rw [← List.all_eq_true, all_variant (by decide) (fun _ => isNamePart_of_isDigit) h,
      all_isNamePart_underscore]
    refine List.all_eq_true.2 fun c hc => ?_
    rw [isLowerable, isNamePart_of_clean (Ident.clean_of_mem_ofName hc), Bool.or_true]

end SoapKit.Naming
