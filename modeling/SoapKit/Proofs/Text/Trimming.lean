import SoapKit.Proofs.Text.Spans
import SoapKit.Text.Blank
import Mathlib.Data.List.TakeWhile

/-!
# Blanks around a text

Trimming takes off the blanks on both sides of a text and leaves what stands between them
(`padded_trim`, `Padded.trim_eq`).
-/

namespace SoapKit.Text

theorem length_trim_le (s : List Char) : (trim s).length ≤ (trimStart s).length := by
  have hlength : (trimStart s).reverse.length = (trimStart s).length := List.length_reverse
  rw [trim, trimEnd, List.length_reverse, ← hlength]
  exact (List.dropWhile_sublist _).length_le

theorem length_trimStart_le_length (s : List Char) : (trimStart s).length ≤ s.length :=
  (List.dropWhile_sublist _).length_le

/-- What has no blanks around it does not begin with one. -/
theorem isBlank_of_trim_eq {c : Char} {s : List Char} (h : trim (c :: s) = c :: s) :
    isBlank c = false := by
  cases hc : isBlank c with
  | false => rfl
  | true =>
    have htrim := length_trim_le (c :: s)
    have hstart := length_trimStart_le_length s
    rw [h, trimStart_cons_of_blank hc, List.length_cons] at htrim
    omega

/-- Trimming goes no further than a character that is not blank. -/
theorem exists_trim_cons {c : Char} (h : isBlank c = false) (s : List Char) :
    ∃ rest, trim (c :: s) = c :: rest := by
  have hlast : [c].dropWhile isBlank = [c] := dropWhile_of_stopsAt (stopsAt_cons h)
  rw [trim, trimStart_cons_of_not h, trimEnd, List.reverse_cons, List.dropWhile_append, hlast]
  split
  · exact ⟨[], rfl⟩
  · exact ⟨_, by rw [List.reverse_append]; rfl⟩

theorem trimStart_eq_of_trim_eq {s : List Char} (h : trim s = s) : trimStart s = s := by
  cases s with
  | nil => rfl
  | cons c rest => exact trimStart_cons_of_not (isBlank_of_trim_eq h)

theorem stopsAt_of_trim_eq {s : List Char} (h : trim s = s) : StopsAt isBlank s := by
  cases s with
  | nil => exact stopsAt_nil
  | cons c rest => exact stopsAt_cons (isBlank_of_trim_eq h)

/-- What has no blanks around it does not end in one. -/
theorem stopsAt_reverse_of_trim_eq {s : List Char} (h : trim s = s) :
    StopsAt isBlank s.reverse := by
  rw [trim, trimStart_eq_of_trim_eq h, trimEnd, List.reverse_eq_iff,
    List.dropWhile_eq_self_iff] at h
  intro c hc
  obtain ⟨rest, hreverse⟩ := List.head?_eq_some_iff.1 hc
  simpa [hreverse] using h

theorem trim_eq_of_stopsAt {s : List Char} (hstart : StopsAt isBlank s)
    (hend : StopsAt isBlank s.reverse) : trim s = s := by
  rw [trim, trimStart, dropWhile_of_stopsAt hstart, trimEnd, dropWhile_of_stopsAt hend,
    List.reverse_reverse]

theorem trim_eq_self {s : List Char} (h : ∀ c ∈ s, isBlank c = false) : trim s = s :=
  trim_eq_of_stopsAt (stopsAt_of_forall h) (stopsAt_of_forall (by simpa using h))

/-- A text with any blanks before and after it. -/
def Padded (inner text : List Char) : Prop :=
  ∃ lead trail, (∀ c ∈ lead, isBlank c = true) ∧ (∀ c ∈ trail, isBlank c = true) ∧
    text = lead ++ inner ++ trail

theorem Padded.trim_eq {inner text : List Char} (h : Padded inner text)
    (hinner : trim inner = inner) : trim text = inner := by
  obtain ⟨lead, trail, hlead, htrail, rfl⟩ := h
  cases inner with
  | nil =>
    have hall : trimStart (lead ++ [] ++ trail) = [] := by
      rw [trimStart, List.dropWhile_eq_nil_iff]
      simpa [or_imp, forall_and] using ⟨hlead, htrail⟩
    rw [trim, hall]
    rfl
  | cons c rest =>
    have hstart : trimStart (lead ++ (c :: rest) ++ trail) = (c :: rest) ++ trail := by
      rw [List.append_assoc]
      exact dropWhile_span hlead (stopsAt_cons (isBlank_of_trim_eq hinner))
    have hend : ((c :: rest) ++ trail).reverse.dropWhile isBlank = (c :: rest).reverse := by
      rw [List.reverse_append]
      exact dropWhile_span (fun d hd => htrail d (List.mem_reverse.1 hd))
        (stopsAt_reverse_of_trim_eq hinner)
    rw [trim, hstart, trimEnd, hend, List.reverse_reverse]

theorem stopsAt_dropWhile (p : Char → Bool) (s : List Char) : StopsAt p (s.dropWhile p) := by
  intro c hc
  have hnot := List.head?_dropWhile_not p s
  rw [hc] at hnot
  simpa using hnot

theorem trim_trim (s : List Char) : trim (trim s) = trim s := by
  have hend : StopsAt isBlank (trim s).reverse := by
    rw [trim, trimEnd, List.reverse_reverse]
    exact stopsAt_dropWhile _ _
  refine trim_eq_of_stopsAt (fun c hc => ?_) hend
  have hfront : trim s <+: trimStart s := by
    rw [trim, trimEnd, ← List.reverse_suffix, List.reverse_reverse]
    exact List.dropWhile_suffix _
  obtain ⟨more, hmore⟩ := hfront
  refine stopsAt_dropWhile isBlank s c ?_
  rw [← trimStart, ← hmore, List.head?_append, hc]
  rfl

/-- A text is what is left of it by trimming, with blanks before and after this. -/
theorem padded_trim (s : List Char) : Padded (trim s) s := by
  have hlead : s.takeWhile isBlank ++ trimStart s = s := List.takeWhile_append_dropWhile
  have htrail : ((trimStart s).reverse.takeWhile isBlank ++
      (trimStart s).reverse.dropWhile isBlank).reverse = trimStart s := by
    rw [List.takeWhile_append_dropWhile, List.reverse_reverse]
  rw [List.reverse_append] at htrail
  refine ⟨s.takeWhile isBlank, ((trimStart s).reverse.takeWhile isBlank).reverse,
    fun c hc => List.mem_takeWhile_imp hc,
    fun c hc => List.mem_takeWhile_imp (List.mem_reverse.1 hc), ?_⟩
  rw [List.append_assoc, trim, trimEnd, htrail, hlead]

/-- Blanks around a text make no difference to trimming. -/
theorem Padded.trim_eq_trim {inner text : List Char} (h : Padded inner text) :
    trim text = trim inner := by
  obtain ⟨lead, trail, hlead, htrail, rfl⟩ := h
  obtain ⟨lead', trail', hlead', htrail', heq⟩ := padded_trim inner
  have hpadded : Padded (trim inner) (lead ++ inner ++ trail) := by
    refine ⟨lead ++ lead', trail' ++ trail, List.forall_mem_append.2 ⟨hlead, hlead'⟩,
      List.forall_mem_append.2 ⟨htrail', htrail⟩, ?_⟩
    calc lead ++ inner ++ trail = lead ++ (lead' ++ trim inner ++ trail') ++ trail := by rw [← heq]
      _ = lead ++ lead' ++ trim inner ++ (trail' ++ trail) := by simp only [List.append_assoc]
  exact hpadded.trim_eq (trim_trim inner)

end SoapKit.Text
