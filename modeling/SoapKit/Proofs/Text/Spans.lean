import SoapKit.Text.Split

/-!
# Spans of a text

What is taken from the front of a text while a condition holds, when it is known where the
condition ends, and cuts at a mark that is known to be the first one.
-/

namespace SoapKit.Text

variable {p : Char → Bool} {body rest : List Char}

/-- A text is empty or begins with a character of which the condition does not hold. -/
def StopsAt (p : Char → Bool) (rest : List Char) : Prop :=
  ∀ c, rest.head? = some c → p c = false

theorem stopsAt_nil : StopsAt p [] := by
  intro c h
  cases h

theorem stopsAt_cons {c : Char} (h : p c = false) : StopsAt p (c :: rest) := by
  intro c' h'
  cases h'
  exact h

theorem stopsAt_of_forall (h : ∀ c ∈ body, p c = false) : StopsAt p body := by
  intro c hc
  exact h c (List.mem_of_mem_head? hc)

theorem stopsAt_append (hbody : StopsAt p body) (hrest : StopsAt p rest) :
    StopsAt p (body ++ rest) := by
  cases body with
  | nil => exact hrest
  | cons c body => exact stopsAt_cons (hbody c rfl)

theorem takeWhile_span (hbody : ∀ c ∈ body, p c = true) (hrest : StopsAt p rest) :
    (body ++ rest).takeWhile p = body := by
  rw [List.takeWhile_append_of_pos hbody]
  cases rest with
  | nil => simp
  | cons c rest => simp [hrest c rfl]

theorem dropWhile_of_stopsAt (hrest : StopsAt p rest) : rest.dropWhile p = rest := by
  cases rest with
  | nil => rfl
  | cons c rest => simp [hrest c rfl]

theorem dropWhile_span (hbody : ∀ c ∈ body, p c = true) (hrest : StopsAt p rest) :
    (body ++ rest).dropWhile p = rest := by
  rw [List.dropWhile_append_of_pos hbody, dropWhile_of_stopsAt hrest]

theorem splitOnce_of_not_mem {mark : Char} {s : List Char} (h : mark ∉ s) :
    splitOnce mark s = none := by
  induction s with
  | nil => rfl
  | cons c rest ih =>
    rw [List.mem_cons, not_or] at h
    rw [splitOnce, if_neg (Ne.symm h.1), ih h.2]
    rfl

theorem not_mem_of_splitOnce {mark : Char} {s : List Char} (h : splitOnce mark s = none) :
    mark ∉ s := by
  induction s with
  | nil => simp
  | cons c rest ih =>
    rw [splitOnce] at h
    split at h
    · cases h
    · rename_i hc
      rw [List.mem_cons, not_or]
      exact ⟨Ne.symm hc, ih (Option.map_eq_none_iff.1 h)⟩

theorem cut_append {mark : Char} {before : List Char} (after : List Char) (h : mark ∉ before) :
    cut mark (before ++ mark :: after) = (before, after) := by
  rw [cut, splitOnce_append after h]
  rfl

theorem eq_append_of_after? {lead s : List Char} (h : after? lead s = some rest) :
    s = lead ++ rest := by
  unfold after? at h
  split at h
  · rename_i hlead
    obtain ⟨after, rfl⟩ := List.isPrefixOf_iff_prefix.1 hlead
    rw [← Option.some.inj h, List.drop_left]
  · cases h

theorem splitAtText_eq_some {mark s before after : List Char}
    (h : splitAtText mark s = some (before, after)) : s = before ++ mark ++ after := by
  induction s generalizing before with
  | nil => cases h
  | cons first rest ih =>
    rw [splitAtText] at h
    split at h
    · rename_i hlead
      obtain ⟨more, hmore⟩ := List.isPrefixOf_iff_prefix.1 hlead
      cases h
      rw [← hmore, List.drop_left, List.nil_append]
    · obtain ⟨⟨b, a⟩, hrest, heq⟩ := Option.map_eq_some_iff.1 h
      cases heq
      rw [ih hrest]
      rfl

/-- A mark is not found in a text that lacks one of its characters. -/
theorem splitAtText_eq_none {mark s : List Char} {c : Char} (hmark : c ∈ mark) (hs : c ∉ s) :
    splitAtText mark s = none := by
  induction s with
  | nil => rfl
  | cons first rest ih =>
    have hlead : ¬ mark.isPrefixOf (first :: rest) = true :=
      fun hlead => hs ((List.isPrefixOf_iff_prefix.1 hlead).subset hmark)
    rw [List.mem_cons, not_or] at hs
    rw [splitAtText, if_neg hlead, ih hs.2]
    rfl

/-- Of two texts at the front of a third one the shorter is at the front of the longer. -/
theorem prefix_of_append_eq {α : Type} {a b c d : List α} (h : a ++ b = c ++ d)
    (hle : a.length ≤ c.length) : a <+: c :=
  List.prefix_of_prefix_length_le ⟨b, h⟩ ⟨d, rfl⟩ hle

/-- What has no mark in it stands at the front of a text up to the mark when it does at the front of
the whole text. -/
theorem prefix_append_cons_iff {α : Type} {mark : α} {lead before rest : List α}
    (h : mark ∉ lead) : lead <+: before ++ mark :: rest ↔ lead <+: before := by
  constructor
  · intro hlead
    have hbefore : before ++ [mark] <+: before ++ mark :: rest := ⟨rest, by simp⟩
    rcases List.prefix_or_prefix_of_prefix hlead hbefore with hp | hp
    · rcases List.prefix_concat_iff.1 hp with rfl | hp
      · simp at h
      · exact hp
    · exact absurd (hp.subset (by simp)) h
  · intro hlead
    exact hlead.trans (List.prefix_append _ _)

/-! ## Characters of a text -/

/-- A text in pieces has the characters of the pieces. The last piece is given by its characters, so
that a written one is not decoded to find them. -/
theorem toList_append_ofList (s : String) (chars : List Char) :
    (s ++ String.ofList chars).toList = s.toList ++ chars := by
  rw [String.toList_append, String.toList_ofList]

end SoapKit.Text
