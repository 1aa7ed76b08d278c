import SoapKit.Proofs.Text.Spans
import SoapKit.Xml.Reference

/-!
# Escaped text

Escaped text reads back as the text it was made from, whatever follows it (`unescape_escape`), and
holds neither angle brackets nor quotes.
-/

namespace SoapKit.Xml

/-- A character stands for itself, or a reference by its name stands for it. -/
theorem escapeChar_cases (c : Char) :
    (∃ name, (name, c) ∈ namedCharacters ∧ escapeChar c = '&' :: (name.toList ++ [';'])) ∨
      (∀ named ∈ namedCharacters, named.2 ≠ c) ∧ escapeChar c = [c] := by
  unfold escapeChar
  split
  · rename_i name found h
    obtain rfl : found = c := by simpa using List.find?_some h
    exact .inl ⟨name, List.mem_of_find?_eq_some h, rfl⟩
  · rename_i h
    exact .inr ⟨fun named hnamed => by simpa using List.find?_eq_none.1 h named hnamed, rfl⟩

theorem unescape_cons {c : Char} (hc : c ≠ '&') (rest : List Char) :
    unescape (c :: rest) = (unescape rest).map (c :: ·) := by
  rw [unescape.eq_3 c rest fun h => hc h]
  cases unescape rest <;> rfl

/-- A reference is read up to its semicolon. -/
theorem unescape_reference {name : List Char} (h : ∀ c ∈ name, c ≠ ';' ∧ c ≠ '&')
    (rest : List Char) :
    unescape ('&' :: (name ++ ';' :: rest)) =
      (referenced? name).bind fun c => (unescape rest).map (c :: ·) := by
  have hname : ∀ c ∈ name, (c != ';' && c != '&') = true := by simpa using h
  have hstop : Text.StopsAt (fun c => c != ';' && c != '&') (';' :: rest) := Text.stopsAt_cons rfl
  have hdrop := Text.dropWhile_span hname hstop
  rw [unescape, Text.takeWhile_span hname hstop]
  split
  · rename_i after hafter
    obtain rfl : rest = after := by simpa [hdrop] using hafter
    cases referenced? name with
    | none => rfl
    | some c => cases unescape rest <;> rfl
  · rename_i hnone
    exact absurd hdrop (hnone rest)

/-- Every name of a character refers to it. -/
theorem referenced?_name :
    ∀ named ∈ namedCharacters, (∀ c ∈ named.1.toList, c ≠ ';' ∧ c ≠ '&') ∧
      referenced? named.1.toList = some named.2 := by
  have hall : (namedCharacters.all fun named =>
      named.1.toList.all (fun c => c != ';' && c != '&') &&
        referenced? named.1.toList == some named.2) = true := by decide
  simpa only [List.all_eq_true, Bool.and_eq_true, bne_iff_ne, beq_iff_eq] using hall

/-- Escaped text is read as what it stands for. -/
theorem unescape_escape_append (s rest : List Char) :
    unescape (escape s ++ rest) = (unescape rest).map (s ++ ·) := by
  induction s with
  | nil => simp [escape]
  | cons c s ih =>
    have hsplit : escape (c :: s) ++ rest = escapeChar c ++ (escape s ++ rest) := by
      simp [escape]
    have hcons : ∀ read : Option (List Char),
        (read.map (s ++ ·)).map (c :: ·) = read.map (c :: s ++ ·) := by
      intro read
      cases read <;> rfl
    rw [hsplit]
    rcases escapeChar_cases c with ⟨name, hname, hc⟩ | ⟨hnone, hc⟩
    · obtain ⟨hplain, href⟩ := referenced?_name _ hname
      rw [hc, List.cons_append, List.append_assoc, List.singleton_append,
        unescape_reference hplain, href, ih]
      exact hcons _
    · rw [hc, List.singleton_append, unescape_cons (hnone ("amp", '&') (by decide)).symm, ih]
      exact hcons _

theorem unescape_escape (s : List Char) : unescape (escape s) = some s := by
  have h := unescape_escape_append s []
  rwa [List.append_nil, unescape, Option.map_some, List.append_nil] at h

/-- A text without ampersands stands for itself. -/
theorem unescape_of_not_mem {s : List Char} (h : '&' ∉ s) : unescape s = some s := by
  induction s with
  | nil => rw [unescape]
  | cons c rest ih =>
    rw [List.mem_cons, not_or] at h
    rw [unescape_cons (Ne.symm h.1), ih h.2]
    rfl

/-- Escaping leaves no angle bracket and no quote. -/
theorem not_mem_escape {c : Char} (h : c ∈ ['<', '>', '\'', '"']) (s : List Char) :
    c ∉ escape s := by
  have hall : (['<', '>', '\'', '"'].all fun c =>
      namedCharacters.all (fun named => !('&' :: (named.1.toList ++ [';'])).contains c) &&
        namedCharacters.any fun named => named.2 == c) = true := by decide
  have hc := List.all_eq_true.1 hall c h
  simp only [Bool.and_eq_true, List.all_eq_true, List.any_eq_true, Bool.not_eq_true',
    List.contains_eq_mem, decide_eq_false_iff_not, beq_iff_eq] at hc
  obtain ⟨hnames, hnamed⟩ := hc
  rw [escape, List.mem_flatMap]
  rintro ⟨x, -, hx⟩
  rcases escapeChar_cases x with ⟨name, hname, heq⟩ | ⟨hnone, heq⟩
  · exact hnames _ hname (heq ▸ hx)
  · rw [heq, List.mem_singleton] at hx
    subst hx
    obtain ⟨named, hmem, heq⟩ := hnamed
    exact hnone named hmem heq

theorem escape_eq_nil_iff {s : List Char} : escape s = [] ↔ s = [] := by
  constructor
  · intro h
    have hread := unescape_escape s
    rw [h, unescape] at hread
    exact (Option.some.inj hread).symm
  · rintro rfl
    rfl

end SoapKit.Xml
