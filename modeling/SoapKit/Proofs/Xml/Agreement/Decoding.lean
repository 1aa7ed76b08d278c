import SoapKit.Proofs.Xml.Agreement.Alike
import SoapKit.Proofs.Xml.Reference
import SoapKit.Xml.Strict

/-!
# Data in two dialects

Both readers replace references by their characters, and wherever both accept a text they make the
same characters of it (`map_char_units`). The strict reader then normalizes line breaks, and in
values tabs as well. This replaces written blanks by blanks or drops them, so without its blanks
data is the same for both readers (`filter_normalizeText`, `filter_normalizeValue`), and all of it
is where no such character is written (`normalizeText_eq`, `normalizeValue_eq`).

The lenient reader decides for every piece of a run whether it is blank, the strict reader for the
run as a whole. `RunAgrees` says that the same is left of a run in the end.
-/

namespace SoapKit.Xml

open Text (isBlank isXmlBlank)

/-! ## References -/

theorem isSome_digit_of_foldDigits {digit : Char → Option Nat} {base acc n : Nat}
    {digits : List Char} (h : Decimal.foldDigits digit base acc digits = some n) :
    ∀ c ∈ digits, (digit c).isSome := by
  induction digits generalizing acc with
  | nil => simp
  | cons c rest ih =>
    obtain ⟨d, hd, h⟩ := Option.bind_eq_some_iff.1 h
    rw [List.forall_mem_cons]
    exact ⟨Option.isSome_of_mem hd, ih h⟩

/-- No quote stands in what names a character. -/
theorem not_mem_of_referenced? {name : List Char} {c quote : Char}
    (h : referenced? name = some c) (hquote : quote = '"' ∨ quote = '\'') : quote ∉ name := by
  intro hmem
  have hnone : Decimal.hexDigit? quote = none ∧ Decimal.digit? quote = none ∧ quote ≠ '#' ∧
      quote ≠ 'x' := by
    rcases hquote with rfl | rfl <;> decide
  unfold referenced? at h
  split at h
  · split at h
    · cases h
    · obtain ⟨n, hn, -⟩ := Option.bind_eq_some_iff.1 h
      simp only [List.mem_cons, hnone.2.2.1, hnone.2.2.2, false_or] at hmem
      simpa [hnone.1] using isSome_digit_of_foldDigits hn quote hmem
  · split at h
    · cases h
    · obtain ⟨n, hn, -⟩ := Option.bind_eq_some_iff.1 h
      simp only [List.mem_cons, hnone.2.2.1, false_or] at hmem
      simpa [hnone.2.1] using isSome_digit_of_foldDigits hn quote hmem
  · obtain ⟨named, hnamed, -⟩ := Option.map_eq_some_iff.1 h
    have hname : named.1.toList = name := by simpa using List.find?_some hnamed
    have hall : (namedCharacters.all fun named =>
        !named.1.toList.contains '"' && !named.1.toList.contains '\'') = true := by decide
    have hnamed := List.all_eq_true.1 hall _ (List.mem_of_find?_eq_some hnamed)
    rw [hname] at hnamed
    rcases hquote with rfl | rfl <;> simp [hmem] at hnamed

theorem eq_of_numbered? {digit : Char → Option Nat} {base : Nat} {digits : List Char} {c c' : Char}
    (h : (Decimal.foldDigits digit base 0 digits).bind charOfNumber? = some c)
    (h' : Strict.numbered? digit base digits = some c') : c = c' := by
  obtain ⟨n, hn, hc⟩ := Option.bind_eq_some_iff.1 h
  obtain ⟨n', hn', hc'⟩ := Option.bind_eq_some_iff.1 h'
  have hdigits : Decimal.digits? digit base digits = some n := by
    unfold Decimal.digits? at hn' ⊢
    split at hn'
    · cases hn'
    · rename_i hempty
      rw [if_neg hempty, hn]
  rw [hdigits] at hn'
  cases hn'
  have hzero : n ≠ 0 := by
    rintro rfl
    cases hc
  split at hc'
  · simp only [hc, Option.getD_some] at hc'
    split at hc'
    · exact Option.some.inj hc'
    · cases hc'
  · cases hc'

/-- A reference that both readers know stands for one character. -/
theorem eq_of_referred? {name : List Char} {c c' : Char} (h : referenced? name = some c)
    (h' : Strict.referred? name = some c') : c = c' := by
  unfold referenced? at h
  unfold Strict.referred? at h'
  split at h
  · split at h
    · cases h
    · exact eq_of_numbered? h h'
  · rename_i hx
    split at h
    · cases h
    · split at h'
      · rename_i heq
        cases heq
        exact absurd rfl (hx _)
      · rename_i heq
        cases heq
        exact eq_of_numbered? h h'
      · rename_i hnot
        exact absurd rfl (hnot _)
  · rename_i hx hnot
    split at h'
    · exact absurd rfl (hx _)
    · exact absurd rfl (hnot _)
    · exact Option.some.inj (h.symm.trans h')

/-! ## Characters of data -/

namespace Strict

/-- The character of a unit. -/
def DataUnit.char : DataUnit → Char
  | .written c => c
  | .referred c => c

theorem units_cons {c : Char} (hc : c ≠ '&') (rest : List Char) :
    units (c :: rest) = (units rest).map (.written c :: ·) := by
  rw [units, if_neg hc]
  cases units rest <;> rfl

theorem units_reference {name : List Char} (h : ';' ∉ name) (rest : List Char) :
    units ('&' :: (name ++ ';' :: rest)) =
      (referred? name).bind fun c => (units rest).map (.referred c :: ·) := by
  have hsplit := Text.splitOnce_append rest h
  rw [units, if_pos rfl]
  split
  · rename_i name' after heq
    rw [hsplit] at heq
    cases heq
    cases referred? name with
    | none => rfl
    | some c => cases units rest <;> rfl
  · rename_i hnone
    rw [hsplit] at hnone
    cases hnone

end Strict

/-- A text that is not empty begins with a reference, if its references can be read at all, or with
a character that stands for itself. -/
theorem unescape_cases {s data : List Char} (h : unescape s = some data) :
    (s = [] ∧ data = []) ∨
      (∃ name c rest more, s = '&' :: (name ++ ';' :: rest) ∧ ';' ∉ name ∧
        referenced? name = some c ∧ unescape rest = some more ∧ data = c :: more) ∨
      ∃ c rest more, s = c :: rest ∧ c ≠ '&' ∧ unescape rest = some more ∧ data = c :: more := by
  cases s with
  | nil =>
    rw [unescape] at h
    exact .inl ⟨rfl, (Option.some.inj h).symm⟩
  | cons c rest =>
    by_cases hc : c = '&'
    · subst hc
      rw [unescape] at h
      split at h
      · rename_i after hafter
        obtain ⟨c, hname, h⟩ := Option.bind_eq_some_iff.1 h
        obtain ⟨more, hmore, h⟩ := Option.bind_eq_some_iff.1 h
        refine .inr (.inl ⟨_, c, after, more, ?_, ?_, hname, hmore, (Option.some.inj h).symm⟩)
        · rw [← hafter, List.takeWhile_append_dropWhile]
        · intro hmem
          simpa using List.all_eq_true.1 List.all_takeWhile _ hmem
      · cases h
    · rw [unescape_cons hc] at h
      obtain ⟨more, hmore, h⟩ := Option.map_eq_some_iff.1 h
      exact .inr (.inr ⟨c, rest, more, rfl, hc, hmore, h.symm⟩)

/-- Where both readers know all references, they read the same characters. -/
theorem map_char_units {s data : List Char} {us : List Strict.DataUnit}
    (h : unescape s = some data) (h' : Strict.units s = some us) : us.map (·.char) = data := by
  induction hn : s.length using Nat.strong_induction_on generalizing s data us with
  | _ n ih =>
    subst hn
    rcases unescape_cases h with ⟨rfl, rfl⟩ | ⟨name, c, rest, more, rfl, hname, hc, hmore, rfl⟩ |
      ⟨c, rest, more, rfl, hc, hmore, rfl⟩
    · rw [Strict.units] at h'
      cases h'
      rfl
    · rw [Strict.units_reference hname] at h'
      obtain ⟨c', hc', h'⟩ := Option.bind_eq_some_iff.1 h'
      obtain ⟨us, hus, rfl⟩ := Option.map_eq_some_iff.1 h'
      rw [List.map_cons, ih rest.length (by simp; omega) hmore hus rfl, eq_of_referred? hc hc']
      rfl
    · rw [Strict.units_cons hc] at h'
      obtain ⟨us, hus, rfl⟩ := Option.map_eq_some_iff.1 h'
      rw [List.map_cons, ih rest.length (by simp) hmore hus rfl]
      rfl

/-- A quote in a text is data. -/
theorem quote_mem_of_unescape {s data : List Char} {quote : Char} (h : unescape s = some data)
    (hquote : quote = '"' ∨ quote = '\'') (hmem : quote ∈ s) : quote ∈ data := by
  induction hn : s.length using Nat.strong_induction_on generalizing s data with
  | _ n ih =>
    subst hn
    rcases unescape_cases h with ⟨rfl, rfl⟩ | ⟨name, c, rest, more, rfl, hname, hc, hmore, rfl⟩ |
      ⟨c, rest, more, rfl, hc, hmore, rfl⟩
    · cases hmem
    · have hrest : quote ∈ rest := by
        have hnot := not_mem_of_referenced? hc hquote
        have hne : quote ≠ '&' ∧ quote ≠ ';' := by
          rcases hquote with rfl | rfl <;> decide
        simpa [hnot, hne] using hmem
      exact List.mem_cons_of_mem _ (ih rest.length (by simp; omega) hmore hrest rfl)
    · rcases List.mem_cons.1 hmem with rfl | hmem
      · exact List.mem_cons_self
      · exact List.mem_cons_of_mem _ (ih rest.length (by simp) hmore hmem rfl)

/-! ## Normalization -/

namespace Strict

/-- A unit that counts as written stands in the text. -/
theorem mem_of_written_mem_units {s : List Char} {us : List DataUnit} (h : units s = some us)
    {c : Char} (hmem : .written c ∈ us) : c ∈ s := by
  fun_induction units s generalizing us
  case case1 =>
    cases h
    cases hmem
  case case2 rest name after hsplit ih =>
    obtain ⟨c', -, h⟩ := Option.bind_eq_some_iff.1 h
    obtain ⟨us, hus, h⟩ := Option.bind_eq_some_iff.1 h
    cases h
    have hafter := ih hus (by simpa using hmem)
    rw [(Text.splitOnce_eq_some hsplit).1]
    simp [hafter]
  case case3 => cases h
  case case4 first rest _ ih =>
    obtain ⟨us, hus, h⟩ := Option.bind_eq_some_iff.1 h
    cases h
    rcases List.mem_cons.1 hmem with heq | hmem
    · cases heq
      exact List.mem_cons_self
    · exact List.mem_cons_of_mem _ (ih hus hmem)

theorem normalizeText_eq {us : List DataUnit} (h : .written '\r' ∉ us) (afterReference : Bool) :
    normalizeText afterReference us = us.map (·.char) := by
  fun_induction normalizeText afterReference us <;> simp_all [DataUnit.char]

theorem filter_normalizeText {p : Char → Bool} (hp : p '\r' = false ∧ p '\n' = false)
    (us : List DataUnit) (afterReference : Bool) :
    (normalizeText afterReference us).filter p = (us.map (·.char)).filter p := by
  fun_induction normalizeText afterReference us <;> simp_all [DataUnit.char, List.filter_cons]

theorem normalizeValue_eq {us : List DataUnit}
    (h : ∀ c, .written c ∈ us → c ≠ '\n' ∧ c ≠ '\r' ∧ c ≠ '\t') :
    normalizeValue us = us.map (·.char) := by
  fun_induction normalizeValue us <;> simp_all [DataUnit.char]

theorem filter_normalizeValue {p : Char → Bool}
    (hp : p '\r' = false ∧ p '\n' = false ∧ p '\t' = false ∧ p ' ' = false)
    (us : List DataUnit) :
    (normalizeValue us).filter p = (us.map (·.char)).filter p := by
  fun_induction normalizeValue us
  case case4 c rest _ hc ih =>
    have hdropped : p c = false := by
      rcases hc with rfl | rfl | rfl <;> simp [hp]
    simp [ih, hp, hdropped, DataUnit.char]
  all_goals simp_all [DataUnit.char, List.filter_cons]

theorem normalizeValue_eq_nil_iff {us : List DataUnit} : normalizeValue us = [] ↔ us = [] := by
  fun_induction normalizeValue us
  case case3 c rest hc ih =>
    have hrest : rest ≠ [] := by
      rintro rfl
      cases hc.2
    simp [ih, hrest]
  all_goals simp

end Strict

/-! ## Values -/

/-- A text without its blanks. -/
def withoutBlanks (s : String) : String :=
  String.ofList (s.toList.filter fun c => !isBlank c)

theorem withoutBlanks_append (a b : String) :
    withoutBlanks (a ++ b) = withoutBlanks a ++ withoutBlanks b := by
  simp [withoutBlanks]

theorem withoutBlanks_ofList (s : List Char) :
    withoutBlanks (String.ofList s) = String.ofList (s.filter fun c => !isBlank c) := by
  rw [withoutBlanks, String.toList_ofList]

/-- Both readers make the same of a raw value, looked at through `f`. -/
def ValueAgrees (f : String → String) (raw : List Char) : Prop :=
  ∀ data us, unescape raw = some data → Strict.units raw = some us →
    f (String.ofList data) = f (String.ofList (Strict.normalizeValue us))

theorem valueAgrees_withoutBlanks (raw : List Char) : ValueAgrees withoutBlanks raw := by
  intro data us hdata hus
  rw [withoutBlanks_ofList, withoutBlanks_ofList, Strict.filter_normalizeValue (by decide),
    map_char_units hdata hus]

/-- A value in which the only written blanks are spaces. -/
def IsSteadyValue (raw : List Char) : Prop :=
  ∀ c ∈ raw, isXmlBlank c = true → c = ' '

instance (raw : List Char) : Decidable (IsSteadyValue raw) :=
  List.decidableBAll (fun c => isXmlBlank c = true → c = ' ') raw

theorem IsSteadyValue.valueAgrees {raw : List Char} (h : IsSteadyValue raw) :
    ValueAgrees id raw := by
  intro data us hdata hus
  rw [Strict.normalizeValue_eq, map_char_units hdata hus]
  intro c hmem
  have hc := h c (Strict.mem_of_written_mem_units hus hmem)
  refine ⟨?_, ?_, ?_⟩ <;> rintro rfl <;> simpa using hc (by decide)

/-! ## Runs of data -/

namespace Strict.Token

/-- Whether a token is character data. -/
def isData : Token → Bool
  | .text _ | .literal _ => true
  | _ => false

/-- The characters of a token as they are written. -/
def written : Token → List Char
  | .text raw => raw
  | .literal data => data
  | _ => []

/-- The characters that the data of a token stands for. -/
def data : Token → List Char
  | .text raw => ((units raw).getD []).map (·.char)
  | .literal data => data
  | _ => []

/-- What the lenient and the strict reader make of the data of a token. -/
inductive Decodes : Token → List Char → List Char → Prop
  | text {raw data : List Char} {us : List DataUnit} : unescape raw = some data →
      units raw = some us → Decodes (.text raw) data (normalizeText false us)
  | literal {data : List Char} : Decodes (.literal data) data (normalizeLiteral data)

variable {t : Token} {data normal : List Char}

theorem map_char_written (s : List Char) : (s.map DataUnit.written).map (·.char) = s := by
  rw [List.map_map]
  exact List.map_id s

theorem Decodes.data_eq (h : t.Decodes data normal) : t.data = data := by
  cases h with
  | text hdata hus =>
    rw [Token.data, hus]
    exact map_char_units hdata hus
  | literal => rfl

/-- Apart from blanks nothing is normalized. -/
theorem Decodes.filter_eq (h : t.Decodes data normal) :
    normal.filter (fun c => !isBlank c) = data.filter fun c => !isBlank c := by
  cases h with
  | text hdata hus => rw [filter_normalizeText (by decide), map_char_units hdata hus]
  | literal => rw [normalizeLiteral, filter_normalizeText (by decide), map_char_written]

theorem Decodes.eq_of_not_mem (h : t.Decodes data normal) (hreturn : '\r' ∉ t.written) :
    normal = data := by
  cases h with
  | text hdata hus =>
    rw [normalizeText_eq fun hmem => hreturn (mem_of_written_mem_units hus hmem),
      map_char_units hdata hus]
  | literal =>
    rw [normalizeLiteral, normalizeText_eq, map_char_written]
    simpa [written] using hreturn

/-- A run of data of which no reader leaves anything, or both leave everything: all of it is blank,
or no piece has a carriage return in it or is blank without being empty. -/
def IsEven (run : List Token) : Prop :=
  (∀ t ∈ run, t.data.all isBlank = true) ∨
    ∀ t ∈ run, '\r' ∉ t.written ∧ (t.data = [] ∨ t.data.all isBlank = false)

instance (run : List Token) : Decidable (IsEven run) :=
  inferInstanceAs (Decidable (_ ∨ _))

/-- The same is left of a run by both readers, looked at through `f`; the pieces of the run are
given with what the lenient and the strict reader make of them. -/
def RunAgrees (f : String → String) (run : List Token) : Prop :=
  ∀ pieces : List (List Char × List Char),
    List.Forall₂ (fun t piece => Decodes t piece.1 piece.2) run pieces →
    let kept := Tree.keptData (pieces.map (·.1))
    let joined := (pieces.map (·.2)).flatten
    kept.all isBlank = joined.all isBlank ∧
      (kept.all isBlank = false → f (String.ofList kept) = f (String.ofList joined))

theorem filter_keptData (pieces : List (List Char)) :
    (Tree.keptData pieces).filter (fun c => !isBlank c) =
      pieces.flatten.filter fun c => !isBlank c := by
  induction pieces with
  | nil => rfl
  | cons piece rest ih =>
    rw [List.flatten_cons, List.filter_append]
    cases hblank : piece.all isBlank with
    | true =>
      have hnone : piece.filter (fun c => !isBlank c) = [] := by simpa using hblank
      rw [Tree.keptData_cons_of_blank hblank, ih, hnone, List.nil_append]
    | false => rw [Tree.keptData_cons_of_not_blank hblank, List.filter_append, ih]

theorem keptData_eq_flatten {pieces : List (List Char)}
    (h : ∀ piece ∈ pieces, piece = [] ∨ piece.all isBlank = false) :
    Tree.keptData pieces = pieces.flatten := by
  induction pieces with
  | nil => rfl
  | cons piece rest ih =>
    rw [List.forall_mem_cons] at h
    rw [List.flatten_cons, ← ih h.2]
    rcases h.1 with rfl | hpiece
    · exact Tree.keptData_cons_of_blank rfl rest
    · exact Tree.keptData_cons_of_not_blank hpiece rest

variable {run : List Token} {pieces : List (List Char × List Char)}

theorem filter_flatten_eq (h : List.Forall₂ (fun t piece => Decodes t piece.1 piece.2) run pieces) :
    (pieces.map (·.2)).flatten.filter (fun c => !isBlank c) =
      (pieces.map (·.1)).flatten.filter fun c => !isBlank c := by
  induction h with
  | nil => rfl
  | cons hpiece _ ih =>
    simp only [List.map_cons, List.flatten_cons, List.filter_append, ih, hpiece.filter_eq]

/-- Apart from blanks the same is left of every run. -/
theorem runAgrees_withoutBlanks (run : List Token) : RunAgrees withoutBlanks run := by
  intro pieces hpieces
  have hfilter := (filter_keptData (pieces.map (·.1))).trans (filter_flatten_eq hpieces).symm
  refine ⟨?_, fun _ => by rw [withoutBlanks_ofList, withoutBlanks_ofList, hfilter]⟩
  have hblank : ∀ s : List Char, s.all isBlank = true ↔ s.filter (fun c => !isBlank c) = [] := by
    simp
  rw [Bool.eq_iff_iff, hblank, hblank, hfilter]

theorem IsEven.runAgrees (h : IsEven run) : RunAgrees id run := by
  intro pieces hpieces
  refine ⟨(runAgrees_withoutBlanks run pieces hpieces).1, fun hkept => ?_⟩
  have hmem : ∀ piece ∈ pieces, ∃ t ∈ run, Decodes t piece.1 piece.2 :=
    fun piece hpiece => exists_mem_of_forall₂ hpieces hpiece
  rcases h with hall | heach
  · have hnone : (pieces.map (·.1)).filter (fun piece => !piece.all isBlank) = [] := by
      rw [List.filter_eq_nil_iff, List.forall_mem_map]
      intro piece hpiece
      obtain ⟨t, ht, hdecodes⟩ := hmem piece hpiece
      rw [← hdecodes.data_eq, hall t ht]
      exact Bool.false_ne_true
    rw [Tree.keptData, hnone] at hkept
    cases hkept
  · have hsame : pieces.map (·.2) = pieces.map (·.1) := by
      refine List.map_congr_left fun piece hpiece => ?_
      obtain ⟨t, ht, hdecodes⟩ := hmem piece hpiece
      exact hdecodes.eq_of_not_mem (heach t ht).1
    have hpieces : ∀ data ∈ pieces.map (·.1), data = [] ∨ data.all isBlank = false := by
      rw [List.forall_mem_map]
      intro piece hpiece
      obtain ⟨t, ht, hdecodes⟩ := hmem piece hpiece
      rw [← hdecodes.data_eq]
      exact (heach t ht).2
    rw [hsame, keptData_eq_flatten hpieces]

end Strict.Token

end SoapKit.Xml
