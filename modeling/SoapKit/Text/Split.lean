/-!
# Cutting texts

A text is cut at the first place where a mark stands. The cut keeps everything: the two pieces
with the mark between them are the text again, and the first piece is free of the mark.
-/

namespace SoapKit.Text

/-- The pieces before and after the first `mark`, or nothing when the text has none. -/
def splitOnce (mark : Char) : List Char → Option (List Char × List Char)
  | [] => none
  | c :: rest =>
    if c = mark then some ([], rest)
    else (splitOnce mark rest).map fun (before, after) => (c :: before, after)

theorem splitOnce_eq_some {mark : Char} {s before after : List Char}
    (h : splitOnce mark s = some (before, after)) :
    s = before ++ mark :: after ∧ mark ∉ before := by
  induction s generalizing before after with
  | nil => simp [splitOnce] at h
  | cons c rest ih =>
    by_cases hc : c = mark
    · simp only [splitOnce, hc, if_true, Option.some.injEq, Prod.mk.injEq] at h
      simp [← h.1, ← h.2, hc]
    · simp only [splitOnce, hc, if_false, Option.map_eq_some_iff] at h
      obtain ⟨⟨b, a⟩, hba, heq⟩ := h
      simp only [Prod.mk.injEq] at heq
      obtain ⟨h1, h2⟩ := ih hba
      rw [← heq.1, ← heq.2]
      exact ⟨by simp [h1], by simp [h2, Ne.symm hc]⟩

theorem splitOnce_append {mark : Char} {before : List Char} (after : List Char)
    (h : mark ∉ before) : splitOnce mark (before ++ mark :: after) = some (before, after) := by
  induction before with
  | nil => simp [splitOnce]
  | cons c rest ih =>
    simp only [List.mem_cons, not_or] at h
    simp [splitOnce, Ne.symm h.1, ih h.2]

/-- Everything up to the first `mark`, and everything after it; all of the text when it has none. -/
def cut (mark : Char) (s : List Char) : List Char × List Char :=
  (splitOnce mark s).getD (s, [])

theorem cut_snd_length_le {mark : Char} {s : List Char} : (cut mark s).2.length ≤ s.length := by
  unfold cut
  cases h : splitOnce mark s with
  | none => simp
  | some p =>
    have := congrArg List.length (splitOnce_eq_some h).1
    simp only [List.length_append, List.length_cons] at this
    simp only [Option.getD_some]
    omega

/-- All pieces between the occurrences of `mark`; a text without one is a single piece. -/
def pieces (mark : Char) : List Char → List (List Char)
  | [] => [[]]
  | c :: rest =>
    if c = mark then [] :: pieces mark rest
    else match pieces mark rest with
      | [] => [[c]]
      | first :: others => (c :: first) :: others

/-- The text after `lead`, when it begins so. -/
def after? (lead : List Char) (s : List Char) : Option (List Char) :=
  if lead.isPrefixOf s then some (s.drop lead.length) else none

/-- The pieces around the first occurrence of a non-empty `mark`. -/
def splitAtText (mark : List Char) : List Char → Option (List Char × List Char)
  | [] => none
  | c :: rest =>
    if mark.isPrefixOf (c :: rest) then some ([], (c :: rest).drop mark.length)
    else (splitAtText mark rest).map fun (before, after) => (c :: before, after)

/-- The lines of a text: line feeds end them, one carriage return before a line feed is dropped,
and a last piece without characters is no line. -/
def lines (s : String) : List String :=
  let all := pieces '\n' s.toList
  let (closed, last) := (all.dropLast, all.getLastD [])
  (closed.map fun line => String.ofList (dropReturn line)) ++
    if last.isEmpty then [] else [String.ofList last]
where
  dropReturn (line : List Char) : List Char :=
    if line.getLast? = some '\r' then line.dropLast else line

end SoapKit.Text
