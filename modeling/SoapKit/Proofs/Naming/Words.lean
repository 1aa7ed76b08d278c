import Mathlib.Data.List.Chain
import SoapKit.Naming.Case
import SoapKit.Naming.Fresh
import SoapKit.Proofs.Text.Letters
import SoapKit.Rust.Ident

/-!
# Names that stay apart

Neither identifiers nor names in small letters tell all names apart: identifiers have one underscore
for any character that Rust does not know, and small letters do not show where a run of capitals
was. Plain names of ASCII letters and digits stay apart as identifiers (`IsPlain.ofName_inj`). They
stay apart as names in small letters too if no two capitals follow each other
(`IsPlain.underscore_inj`). Numbers behind names change nothing about that.
-/

namespace SoapKit.Naming

open Rust (Ident)

/-! ## Plain names -/

/-- A name begins with a capital letter, has ASCII letters, digits and underscores in it, and does
not end in an underscore. -/
structure IsPlain (name : String) : Prop where
  initial : ∃ c rest, name.toList = c :: rest ∧ c.isUpper = true
  chars : ∀ c ∈ name.toList, c.isAlphanum = true ∨ c = '_'
  last : name.toList.getLast? ≠ some '_'

/-- The words of a name are of ASCII letters and digits, and the first one begins with a letter. -/
def hasPlainWords (name : String) : Bool :=
  match (camelize name).toList with
  | [] => false
  | initial :: rest => initial.isUpper && rest.all Char.isAlphanum

theorem exists_of_hasPlainWords {name : String} (h : hasPlainWords name = true) :
    ∃ c rest, (camelize name).toList = c :: rest ∧ c.isUpper = true ∧
      ∀ d ∈ c :: rest, d.isAlphanum = true := by
  unfold hasPlainWords at h
  split at h
  · cases h
  · next c rest hlist =>
    rw [Bool.and_eq_true, List.all_eq_true] at h
    exact ⟨c, rest, hlist, h.1, List.forall_mem_cons.2 ⟨Text.isAlphanum_of_isUpper h.1, h.2⟩⟩

theorem toList_numbered (base : String) (number : Nat) :
    (FreshNames.numbered base number).toList = base.toList ++ '_' :: Nat.toDigits 10 number := by
  simp [FreshNames.numbered, String.toList_append]

theorem isDigit_of_mem_toDigits {number : Nat} {c : Char} (h : c ∈ Nat.toDigits 10 number) :
    c.isDigit = true :=
  Nat.isDigit_of_mem_toDigits (by decide) (by decide) h

theorem isPlain_camelize {base : String} (h : hasPlainWords base = true) :
    IsPlain (camelize base) := by
  obtain ⟨c, rest, hlist, hinitial, hchars⟩ := exists_of_hasPlainWords h
  refine ⟨⟨c, rest, hlist, hinitial⟩, fun d hd => .inl (hchars d (hlist ▸ hd)), fun hlast => ?_⟩
  have hmem := List.mem_of_getLast? hlast
  rw [hlist] at hmem
  exact absurd (hchars '_' hmem) (by decide)

/-- A name with a number behind it is plain if it was plain before. -/
theorem IsPlain.numbered {base : String} (h : IsPlain base) (number : Nat) :
    IsPlain (FreshNames.numbered base number) := by
  obtain ⟨⟨c, rest, hlist, hinitial⟩, hchars, -⟩ := h
  have hdigits := toList_numbered base number
  refine ⟨⟨c, _, by rw [hdigits, hlist, List.cons_append], hinitial⟩, ?_, ?_⟩
  · intro d hd
    rw [hdigits, List.mem_append, List.mem_cons] at hd
    rcases hd with hd | rfl | hd
    · exact hchars d hd
    · exact .inr rfl
    · exact .inl (Text.isAlphanum_of_isDigit (isDigit_of_mem_toDigits hd))
  · intro hlast
    have hne : Nat.toDigits 10 number ≠ [] := Nat.toDigits_ne_nil
    rw [hdigits, List.getLast?_append_of_ne_nil _ (List.cons_ne_nil _ _),
      List.getLast?_cons_of_ne_nil hne] at hlast
    exact absurd (isDigit_of_mem_toDigits (List.mem_of_getLast? hlast)) (by decide)

/-! ## Identifiers -/

theorem clean_eq {c : Char} (h : c.isAlphanum = true ∨ c = '_') : Ident.clean c = c :=
  if_pos h

theorem IsPlain.ofName_eq {name : String} (h : IsPlain name) :
    Ident.ofName name = if Ident.forbidden.contains name then ⟨name ++ "_"⟩ else ⟨name⟩ := by
  obtain ⟨⟨c, rest, hlist, hinitial⟩, hchars, -⟩ := h
  have hclean : name.toList.map Ident.clean = c :: rest := by
    rw [List.map_congr_left fun d hd => clean_eq (hchars d hd), List.map_id', hlist]
  have hword : String.ofList (c :: rest) = name := by rw [← hlist, String.ofList_toList]
  simp only [Ident.ofName, hclean, Text.isDigit_of_isUpper hinitial, Bool.false_eq_true, if_false,
    hword]

/-- Plain names stay apart as identifiers. -/
theorem IsPlain.ofName_inj {name other : String} (h : IsPlain name) (hother : IsPlain other)
    (heq : Ident.ofName name = Ident.ofName other) : name = other := by
  have hmarked : ∀ {a b : String}, IsPlain b → a ++ "_" ≠ b := by
    intro a b hb hab
    refine hb.last ?_
    rw [← hab, String.toList_append]
    exact List.getLast?_concat
  rw [h.ofName_eq, hother.ofName_eq] at heq
  split at heq <;> split at heq <;> rw [Ident.mk.injEq] at heq
  · have hlists := congrArg String.toList heq
    rw [String.toList_append, String.toList_append] at hlists
    exact String.toList_inj.1 (List.append_cancel_right hlists)
  · exact absurd heq (hmarked hother)
  · exact absurd heq.symm (hmarked h)
  · exact heq

/-- Identifiers end as the names do that they are made of. -/
theorem isSuffix_ofName {name : String} {ending : List Char} (hne : ending ≠ [])
    (hending : ending <:+ name.toList.map Ident.clean)
    (hforbidden : ∀ word ∈ Ident.forbidden, ¬ending <:+ word.toList) :
    ending <:+ (Ident.ofName name).name.toList := by
  unfold Ident.ofName
  simp only
  generalize name.toList.map Ident.clean = cleaned at hending
  cases cleaned with
  | nil => exact absurd (List.suffix_nil.1 hending) hne
  | cons c rest =>
    have hwhole : ending <:+ if c.isDigit then '_' :: c :: rest else c :: rest := by
      split
      · exact hending.trans (List.suffix_cons ..)
      · exact hending
    simp only
    generalize (if c.isDigit then '_' :: c :: rest else c :: rest) = whole at hwhole
    split
    · next hmem =>
      refine absurd ?_ (hforbidden _ (List.contains_iff_mem.1 hmem))
      rwa [String.toList_ofList]
    · rwa [String.toList_ofList]

/-- The words of Rust are in small letters, so nothing else needs to be marked. -/
theorem text_eq_name {ident : Ident} {c : Char} (hc : c ∈ ident.name.toList)
    (hlower : c.isLower = false) : ident.text = ident.name := by
  have hkeywords : (Ident.keywords.all fun word => word.toList.all Char.isLower) = true := by decide
  have hname : ident.name ∉ Ident.keywords := by
    intro hmem
    have hsmall := List.all_eq_true.1 (List.all_eq_true.1 hkeywords _ hmem) c hc
    rw [hsmall] at hlower
    cases hlower
  rw [Ident.text, if_neg (by simpa using hname)]

/-! ## Small letters -/

/-- In a name of letters, digits and underscores, capitals begin words, and digits stand behind
underscores. -/
structure Spaced (name : List Char) : Prop where
  chars : ∀ c ∈ name, c.isAlphanum = true ∨ c = '_'
  chain : name.IsChain fun a b =>
    (b.isUpper = true → a.isUpper = false) ∧ (a = '_' → b.isDigit = true)

/-- No two capitals follow each other in the capitalised words of a name. -/
def hasSingleCapitals (name : String) : Bool :=
  decide ((camelize name).toList.IsChain fun a b : Char => b.isUpper = true → a.isUpper = false)

namespace Spaced

variable {p q c d : Char} {rest others : List Char}

theorem tail (h : Spaced (c :: rest)) : Spaced rest where
  chars := fun d hd => h.chars d (List.mem_cons_of_mem _ hd)
  chain := h.chain.tail

theorem isDigit_of_mark (h : Spaced ('_' :: c :: rest)) : c.isDigit = true :=
  (List.isChain_cons_cons.1 h.chain).1.2 rfl

theorem underscoreFrom_cons (h : Spaced (p :: c :: rest)) :
    underscoreFrom (some p) (c :: rest) =
      if c.isUpper then '_' :: c.toLower :: underscoreFrom (some c) rest
      else c :: underscoreFrom (some c) rest := by
  have hdash : c ≠ '-' := by
    rintro rfl
    exact absurd (h.chars '-' (by simp)) (by decide)
  by_cases hupper : c.isUpper = true
  · have hstarts : startsWord (some p) rest.head? = true := by
      have hsmall := (List.isChain_cons_cons.1 h.chain).1.1 hupper
      rcases h.chars p List.mem_cons_self with hp | rfl
      · have hbefore : p.isLower = true ∨ p.isDigit = true := by
          simpa [Text.isAlphanum_iff, Text.isAlpha_iff, hsmall] using hp
        simp [startsWord, hbefore]
      · rw [Text.isUpper_of_isDigit h.isDigit_of_mark] at hupper
        cases hupper
    rw [underscoreFrom, if_pos ⟨hupper, hstarts⟩, if_neg hdash, if_pos hupper]
  · rw [underscoreFrom, if_neg (fun h => hupper h.1), if_neg hdash, if_neg hupper,
      Text.toLower_of_not_isUpper hupper]

/-- A capital is told from anything else: it is written as an underscore without a digit behind it.
-/
theorem underscoreFrom_ne (h : Spaced (p :: c :: rest)) (hother : Spaced (q :: d :: others))
    (hc : c.isUpper = true) (hd : ¬d.isUpper = true) :
    underscoreFrom (some p) (c :: rest) ≠ underscoreFrom (some q) (d :: others) := by
  rw [h.underscoreFrom_cons, hother.underscoreFrom_cons, if_pos hc, if_neg hd]
  intro heq
  obtain ⟨rfl, hbehind⟩ := List.cons_eq_cons.1 heq
  cases others with
  | nil => cases hbehind
  | cons e others =>
    have hdigit := hother.tail.isDigit_of_mark
    rw [hother.tail.underscoreFrom_cons, if_neg (by simp [Text.isUpper_of_isDigit hdigit])]
      at hbehind
    obtain ⟨rfl, -⟩ := List.cons_eq_cons.1 hbehind
    rw [Text.isDigit_toLower hc] at hdigit
    cases hdigit

theorem underscoreFrom_inj (h : Spaced (p :: rest)) (hother : Spaced (q :: others))
    (heq : underscoreFrom (some p) rest = underscoreFrom (some q) others) : rest = others := by
  induction rest generalizing p q others with
  | nil =>
    cases others with
    | nil => rfl
    | cons d others =>
      rw [hother.underscoreFrom_cons] at heq
      split at heq <;> cases heq
  | cons c rest ih =>
    cases others with
    | nil =>
      rw [h.underscoreFrom_cons] at heq
      split at heq <;> cases heq
    | cons d others =>
      by_cases hc : c.isUpper = true <;> by_cases hd : d.isUpper = true
      · rw [h.underscoreFrom_cons, hother.underscoreFrom_cons, if_pos hc, if_pos hd] at heq
        obtain ⟨hfirst, hrest⟩ := List.cons_eq_cons.1 (List.cons_eq_cons.1 heq).2
        rw [Text.toLower_inj hc hd hfirst, ih h.tail hother.tail hrest]
      · exact absurd heq (h.underscoreFrom_ne hother hc hd)
      · exact absurd heq.symm (hother.underscoreFrom_ne h hd hc)
      · rw [h.underscoreFrom_cons, hother.underscoreFrom_cons, if_neg hc, if_neg hd] at heq
        obtain ⟨hfirst, hrest⟩ := List.cons_eq_cons.1 heq
        rw [hfirst, ih h.tail hother.tail hrest]

end Spaced

/-- Plain names stay apart in small letters if no two capitals follow each other. -/
theorem IsPlain.underscore_inj {name other : String} (h : IsPlain name) (hother : IsPlain other)
    (hspaced : Spaced name.toList) (hspaced' : Spaced other.toList)
    (heq : underscore name = underscore other) : name = other := by
  obtain ⟨c, rest, hlist, hc⟩ := h.initial
  obtain ⟨d, others, hlist', hd⟩ := hother.initial
  rw [hlist] at hspaced
  rw [hlist'] at hspaced'
  have hinitial : ∀ {c : Char} {rest : List Char}, c.isUpper = true →
      underscoreFrom none (c :: rest) = c.toLower :: underscoreFrom (some c) rest := by
    intro c rest hc
    have hdash : c ≠ '-' := by
      rintro rfl
      cases hc
    simp [underscoreFrom, startsWord, hdash]
  have hlists := congrArg String.toList heq
  rw [underscore, underscore, String.toList_ofList, String.toList_ofList, hlist, hlist',
    hinitial hc, hinitial hd] at hlists
  obtain ⟨hfirst, hrest⟩ := List.cons_eq_cons.1 hlists
  refine String.toList_inj.1 ?_
  rw [hlist, hlist', Text.toLower_inj hc hd hfirst, hspaced.underscoreFrom_inj hspaced' hrest]

theorem spaced_camelize {base : String} (hplain : hasPlainWords base = true)
    (hcapitals : hasSingleCapitals base = true) : Spaced (camelize base).toList := by
  obtain ⟨c, rest, hlist, -, hchars⟩ := exists_of_hasPlainWords hplain
  rw [← hlist] at hchars
  refine ⟨fun d hd => .inl (hchars d hd), ?_⟩
  have hchain := of_decide_eq_true hcapitals
  refine hchain.imp_of_mem_imp fun a b ha _ hcapital => ⟨hcapital, ?_⟩
  rintro rfl
  exact absurd (hchars '_' ha) (by decide)

/-- A number behind a name leaves the spaces as they are. -/
theorem Spaced.numbered {base : String} (h : Spaced base.toList) (hplain : IsPlain base)
    (number : Nat) : Spaced (FreshNames.numbered base number).toList := by
  refine ⟨(hplain.numbered number).chars, ?_⟩
  have hdigits : (Nat.toDigits 10 number).IsChain fun a b =>
      (b.isUpper = true → a.isUpper = false) ∧ (a = '_' → b.isDigit = true) := by
    refine (List.pairwise_of_forall_mem_list fun a ha b hb => ?_).isChain
    exact ⟨fun _ => Text.isUpper_of_isDigit (isDigit_of_mem_toDigits ha),
      fun _ => isDigit_of_mem_toDigits hb⟩
  rw [toList_numbered, List.isChain_append, List.isChain_cons]
  refine ⟨h.chain, ⟨fun b hb => ?_, hdigits⟩, ?_⟩
  · exact ⟨fun _ => rfl, fun _ => isDigit_of_mem_toDigits (List.mem_of_mem_head? hb)⟩
  · rintro a ha b hb
    cases hb
    refine ⟨fun hmark => absurd hmark (by decide), ?_⟩
    rintro rfl
    exact absurd ha hplain.last

end SoapKit.Naming
